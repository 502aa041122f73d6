import Arbor.Proofs.Text.Piece
import Arbor.Proofs.Token.Evaluation
import Arbor.Proofs.Token.Language

/-!
# Tokens belong to the language of their kind

The matcher is greedy, cuts left recursion off and keeps what it found under the cut.
None of that can lead it outside the language of an expression: where it gets somewhere,
the text up to there is matched (`Munch.Run.matches_upTo`). To get nowhere says nothing,
so the invariant of the cache speaks only of the entries that lead somewhere. An item
of a sequence that gets nowhere counts as a match of the empty text if it is nullable, and
then it is one.
-/

namespace Arbor

namespace Munch

/-! ## Literals and ranges -/

/-- What a literal takes, if anything, is itself. -/
theorem take_literalLength {v rest : Text} (h : 0 < literalLength v rest) :
    rest.take (literalLength v rest) = v := by
  unfold literalLength at h ⊢
  split at h
  · next hv =>
    rw [if_pos hv]
    exact List.prefix_iff_eq_take.mp (List.isPrefixOf_iff_prefix.mp hv) |>.symm
  · exact absurd h (Nat.lt_irrefl 0)

/-- What a range takes, if anything, is a character between its bounds. -/
theorem take_rangeLength {lo hi rest : Text} (h : 0 < rangeLength lo hi rest) :
    ∃ c, lo.firstChar ≤ c ∧ c ≤ hi.firstChar
      ∧ rest.take (rangeLength lo hi rest) = String.utf8EncodeChar c := by
  cases rest with
  | nil => exact absurd h (Nat.lt_irrefl 0)
  | cons b rest =>
    have hbytes := Piece.bytes_split b rest
    unfold rangeLength Text.firstPiece? at h ⊢
    dsimp only at h ⊢
    split at h
    · exact absurd h (Nat.lt_irrefl 0)
    · next hc =>
      simp only [not_or, Char.not_lt] at hc
      rw [if_neg (by simpa only [not_or, Char.not_lt] using hc), List.take_succ_cons, ← hbytes]
      cases hs : (Piece.split b rest).1 with
      | char c =>
        rw [hs] at hc
        exact ⟨c, hc.2.1, hc.2.2, rfl⟩
      | stray b =>
        -- a stray byte counts as the replacement character
        rw [hs] at hc
        exact absurd rfl hc.1

/-! ## Runs -/

variable {g : Grammar} {t : Text} {r s : Rest t}

/-- Whether a task that leads from one place to another matches the text between
them. An expression that leads nowhere may have failed. -/
def Task.Matches (g : Grammar) (r s : Rest t) : Task → Prop
  | expr e => s.left < r.left → Arbor.Matches g e (r.upTo s)
  | item e => Arbor.Matches g e (r.upTo s)
  | many e => Arbor.Matches g (.repetition e) (r.upTo s)

/-- Whether what the cache has for a name is matched by it, if it leads somewhere. -/
def Kept (g : Grammar) (n : Text) (r s : Rest t) : Prop :=
  s.left < r.left → ∀ mark, Matches g (.name mark n) (r.upTo s)

/-- **Where a run leads somewhere, the text up to there is matched**, and so it is with
all that the cache has. -/
theorem Run.matches_upTo {opened : Grammar.Opened} {task : Task} {c c' : PlaceCache t}
    {o : Option (Rest t)} (h : Run g opened r task c o c') (hc : c.Entries (Kept g)) :
    c'.Entries (Kept g) ∧ ∀ s ∈ o, task.Matches g r s := by
  induction h with
  | empty =>
    refine ⟨hc, ?_⟩
    rintro s ⟨⟩ hlt
    exact absurd hlt (Nat.lt_irrefl _)
  | @literal _ r v =>
    refine ⟨hc, ?_⟩
    rintro s ⟨⟩ hlt
    rw [Rest.left_drop] at hlt
    rw [r.upTo_drop (literalLength_le v r.bytes), take_literalLength (by omega)]
    exact .literal
  | @range _ r lo hi =>
    refine ⟨hc, ?_⟩
    rintro s ⟨⟩ hlt
    rw [Rest.left_drop] at hlt
    have hpos : 0 < rangeLength lo hi r.bytes := by omega
    obtain ⟨x, hlo, hhi, hx⟩ := take_rangeLength hpos
    rw [r.upTo_drop (rangeLength_le lo hi r.bytes), hx]
    exact .range hlo hhi
  | group _ ih =>
    obtain ⟨hc', hm⟩ := ih hc
    exact ⟨hc', fun s hs hlt => .group (hm s hs hlt)⟩
  | option _ ih =>
    obtain ⟨hc', hm⟩ := ih hc
    exact ⟨hc', fun s hs hlt => .present (hm s hs hlt)⟩
  | repetition _ ih =>
    obtain ⟨hc', hm⟩ := ih hc
    exact ⟨hc', fun s hs _ => hm s hs⟩
  | alt _ _ ih₁ ih₂ =>
    obtain ⟨hc₁, hm₁⟩ := ih₁ hc
    obtain ⟨hc₂, hm₂⟩ := ih₂ hc₁
    refine ⟨hc₂, ?_⟩
    rintro s ⟨⟩ hlt
    split at hlt
    · next hba =>
      rw [if_pos hba]
      exact .altRight (hm₂ _ rfl hlt)
    · next hba =>
      rw [if_neg hba]
      exact .altLeft (hm₁ _ rfl hlt)
  | @seq _ _ _ _ _ o _ _ ih =>
    obtain ⟨hc', hm⟩ := ih hc
    refine ⟨hc', ?_⟩
    rintro s ⟨⟩ hlt
    cases o with
    | none => exact absurd hlt (Nat.lt_irrefl _)
    | some s => exact hm s rfl
  | hit hs =>
    -- the entry was matched when it was kept
    refine ⟨hc, ?_⟩
    rintro s ⟨⟩ hlt
    exact hc _ _ _ hs hlt _
  | guard | undefined =>
    refine ⟨hc, ?_⟩
    rintro s ⟨⟩ hlt
    exact absurd hlt (Nat.lt_irrefl _)
  | @enter _ r _ n _ _ s _ _ _ hp hle _ ih =>
    obtain ⟨hc', hm⟩ := ih hc
    have hname : Kept g n r s := fun hlt mark => .name hp (hm s rfl hlt)
    refine ⟨hc'.insert hle hname, ?_⟩
    rintro s ⟨⟩ hlt
    exact hname hlt _
  | @item _ r _ _ s _ _ hn h ih =>
    obtain ⟨hc', hm⟩ := ih hc
    refine ⟨hc', ?_⟩
    rintro s ⟨⟩
    rcases Nat.eq_or_lt_of_le (h.left_le s rfl) with heq | hlt
    · show Matches g _ (r.upTo s)
      rw [Rest.upTo_of_left_eq heq]
      exact Grammar.matches_nil_of_nullable (hn heq)
    · exact hm s rfl hlt
  | itemFail _ _ _ ih => exact ⟨(ih hc).1, fun s hs => absurd hs (by simp)⟩
  | bothFirst _ ih => exact ⟨(ih hc).1, fun s hs => absurd hs (by simp)⟩
  | bothHere _ h₂ ih₁ ih₂ =>
    obtain ⟨hc₁, hm₁⟩ := ih₁ hc
    obtain ⟨hc₂, hm₂⟩ := ih₂ hc₁
    refine ⟨hc₂, fun s hs => ?_⟩
    show Matches g _ (Rest.upTo _ s)
    rw [← Rest.upTo_append (Nat.le_refl _) (h₂.left_le s hs)]
    exact .seq (hm₁ _ rfl) (hm₂ s hs)
  | bothThere hlt _ h₂ ih₁ ih₂ =>
    obtain ⟨hc₁, hm₁⟩ := ih₁ hc
    obtain ⟨hc₂, hm₂⟩ := ih₂ hc₁
    refine ⟨hc₂, fun s hs => ?_⟩
    show Matches g _ (Rest.upTo _ s)
    rw [← Rest.upTo_append (Nat.le_of_lt hlt) (h₂.left_le s hs)]
    exact .seq (hm₁ _ rfl) (hm₂ s hs)
  | manyLast _ ih =>
    refine ⟨(ih hc).1, ?_⟩
    rintro s ⟨⟩
    show Matches g _ (Rest.upTo _ _)
    rw [Rest.upTo_of_left_eq rfl]
    exact .done
  | manyMore hlt _ h₂ ih₁ ih₂ =>
    obtain ⟨hc₁, hm₁⟩ := ih₁ hc
    obtain ⟨hc₂, hm₂⟩ := ih₂ hc₁
    refine ⟨hc₂, fun s hs => ?_⟩
    show Matches g _ (Rest.upTo _ s)
    rw [← Rest.upTo_append (Nat.le_of_lt hlt) (h₂.left_le s hs)]
    exact .more (hm₁ _ rfl hlt) (hm₂ s hs)

end Munch

/-! ## Tokens -/

namespace Grammar

variable {g : Grammar} {t : Text}

theorem mem_tokenNames_of_mem {p : Production} (h : p ∈ g.tokenProductions) :
    p.name ∈ g.tokenNames := by
  obtain ⟨hp, hn⟩ := List.mem_filter.mp h
  exact List.mem_filter.mpr ⟨List.mem_map_of_mem hp, hn⟩

/-- **The longest match** is nothing at all, or a text that the token production of its
kind matches. -/
theorem longest_matches (g : Grammar) (r : Rest t) :
    (g.longest r).stop.isEmpty = true ∧ (g.longest r).kind = Token.errorKind
      ∨ ∃ p ∈ g.tokenProductions, (g.longest r).kind = p.name
        ∧ (g.longest r).stop.val.left < r.left
        ∧ Matches g p.body (r.upTo (g.longest r).stop.val) := by
  refine (longest_induction (P := fun tried best => best.cache.Entries (Munch.Kept g)
    ∧ (best.stop.isEmpty = true ∧ best.kind = Token.errorKind
      ∨ ∃ p ∈ tried, best.kind = p.name ∧ best.stop.val.left < r.left
        ∧ Matches g p.body (r.upTo best.stop.val))) ?_ ?_).2
  · exact ⟨PlaceCache.entries_empty, .inl ⟨by simp [Rest.Reached.isEmpty, Rest.here], rfl⟩⟩
  · rintro tried p rest best - ⟨hc, hbest⟩
    obtain ⟨s, c, hrun, hcache, hcases⟩ := improve_cases (g := g) best p
    obtain ⟨hc', hm⟩ := hrun.matches_upTo hc
    refine ⟨hcache ▸ hc', ?_⟩
    rcases hcases with ⟨hlt, hkind, hstop⟩ | ⟨-, hkind, hstop⟩
    · -- the production wins
      have hsr : s.left < r.left := Nat.lt_of_lt_of_le hlt best.stop.property
      rw [hkind, hstop]
      exact .inr ⟨p, by simp, rfl, hsr, hm s rfl hsr⟩
    · rw [hkind, hstop]
      refine hbest.imp_right ?_
      rintro ⟨q, hq, hbest⟩
      exact ⟨q, List.mem_append_left _ hq, hbest⟩

end Grammar

namespace Sample

/-- The token `List = List "a" | "a" .`, which is left recursive. -/
def chain : Production :=
  ⟨utf8 "List", ⟨[], 1, 1⟩, .alt
    (.seq (.name ⟨[], 1, 8⟩ (utf8 "List")) (.literal (utf8 "a"))) (.literal (utf8 "a"))⟩

def chains : Grammar := .ofProductions [chain]

theorem tokenProductions_chains : chains.tokenProductions = [chain] :=
  Grammar.tokenProductions_ofProductions _

/-- Its second side takes a byte, whatever becomes of the first. -/
theorem isStuck_chains : (Tokenizer.start chains (utf8 "aa")).isStuck = false := by
  have hlongest : chains.longest (Rest.start (utf8 "aa"))
      = chains.improve _ ⟨Token.errorKind, Rest.here _, ∅⟩ chain := by
    rw [Grammar.longest, tokenProductions_chains]
    rfl
  show (chains.longest (Rest.start (utf8 "aa"))).stop.isEmpty = false
  rw [hlongest]
  obtain ⟨s, c, hrun, -, ⟨hlt, -, hstop⟩ | ⟨hle, -⟩⟩ := Grammar.improve_cases (g := chains)
    (⟨Token.errorKind, (Rest.start (utf8 "aa")).here, ∅⟩ : Candidate _) chain
  · rw [Rest.Reached.isEmpty, hstop]
    exact decide_eq_false (Nat.ne_of_lt hlt)
  · -- the literal leads behind the first byte
    exfalso
    replace hle : 2 ≤ s.left := hle
    cases hrun with
    | alt _ hb =>
      cases hb
      split at hle
      · exact absurd hle (by decide)
      · next hab => exact hab (Nat.lt_of_lt_of_le (by decide) hle)

end Sample

namespace Tokenizer

variable {t : Text} {z : Tokenizer t}

/-- **A token belongs to the language of its kind**: a token that is not an error, and
not the end, has the name of a token production as its kind, and the production matches
its text. -/
theorem next_matches (he : z.atEnd = false)
    (hk : z.isStuck = false ∨ z.next.1.kind ≠ Token.errorKind) :
    z.next.1.kind ∈ z.grammar.tokenNames
      ∧ ∀ mark, Matches z.grammar (.name mark z.next.1.kind) z.next.1.literal := by
  obtain ⟨s, -, hs, hnext⟩ := next_eq he
  rw [hnext] at hk ⊢
  rcases z.grammar.longest_matches z.rest with ⟨hstuck, hkind⟩ | ⟨p, hp, hkind, hlt, hm⟩
  · -- nothing leads anywhere, and the token is an error
    rcases hk with hk | hk
    · exact absurd hstuck (by simpa [isStuck] using hk)
    · exact absurd hkind hk
  · rcases hs with ⟨hstuck, -⟩ | ⟨-, rfl⟩
    · have hleft : (z.grammar.longest z.rest).stop.val.left = z.rest.left := by
        simpa [isStuck, Rest.Reached.isEmpty] using hstuck
      omega
    · dsimp only
      rw [hkind]
      exact ⟨Grammar.mem_tokenNames_of_mem hp, fun mark =>
        .name (Grammar.get?_of_mem (List.mem_filter.mp hp).1) hm⟩

theorem next_matches_chains :
    (start Sample.chains (utf8 "aa")).isStuck = false
      ∧ (start Sample.chains (utf8 "aa")).next.1.kind ∈ Sample.chains.tokenNames
      ∧ ∀ mark, Matches Sample.chains
        (.name mark (start Sample.chains (utf8 "aa")).next.1.kind)
        (start Sample.chains (utf8 "aa")).next.1.literal :=
  ⟨Sample.isStuck_chains, next_matches rfl (.inl Sample.isStuck_chains)⟩

end Tokenizer

end Arbor
