import Arbor.Proofs.Text.Position
import Arbor.Proofs.Token.Refinement
import Arbor.Proofs.Token.Soundness
import Mathlib.Data.List.Chain

/-!
# Cutting a text loses nothing

The tokens of a text lie end to end: the first starts at the start, each of the others
where the one before it ends, and the last one is empty and stands at the end
(`Cut`). That is a statement about offsets, of which the rest is read off: joined together
the tokens are the text, and every position in their spans is the position of its offset,
with line and column (`tokenize_lossless`).

A tokenizer that stands at the position of its place keeps doing so (`Tokenizer.Placed.next`),
since a match ends in the text and never before its start; both are in the type of a place
that is reached. On a grammar that is not left recursive, each of the tokens is the one that
the scans find there (`tokenize_eq_of_cuts`).
-/

namespace Arbor

/-! ## Tokens end to end -/

/-- **Tokens that cut a text** from an offset on: each covers some bytes, and is of the
kind of a token production or an error; behind the last byte stands the end token. -/
inductive Cut (g : Grammar) (t : Text) : Nat → List Token → Prop
  | finish : Cut g t t.length [⟨Token.endKind, [], .empty (t.positionAt t.length)⟩]
  | token {i j kind tokens} (hij : i < j) (hj : j ≤ t.length)
      (hk : kind ∈ g.tokenNames ∨ kind = Token.errorKind) : Cut g t j tokens →
      Cut g t i (⟨kind, (t.drop i).take (j - i), ⟨t.positionAt i, t.positionAt j⟩⟩ :: tokens)

namespace Cut

variable {g : Grammar} {t : Text} {i : Nat} {tokens : List Token}

theorem start_of_mem_head? (h : Cut g t i tokens) : ∀ a ∈ tokens.head?,
    a.span.start = t.positionAt i := by
  cases h with
  | finish =>
    rintro a ⟨⟩
    rfl
  | token =>
    rintro a ⟨⟩
    rfl

theorem ne_nil (h : Cut g t i tokens) : tokens ≠ [] := by
  cases h <;> exact List.cons_ne_nil _ _

theorem getLast?_eq (h : Cut g t i tokens) :
    tokens.getLast? = some ⟨Token.endKind, [], .empty (t.positionAt t.length)⟩ := by
  induction h with
  | finish => rfl
  | token _ _ _ h ih =>
    rw [List.getLast?_cons_of_ne_nil h.ne_nil]
    exact ih

/-- Joined together, the tokens are what is left of the text. -/
theorem flatMap_literal (h : Cut g t i tokens) : tokens.flatMap Token.literal = t.drop i := by
  induction h with
  | finish =>
    rw [List.drop_length]
    rfl
  | @token i j _ _ hij _ _ _ ih =>
    rw [List.flatMap_cons, ih]
    have hj : t.drop j = (t.drop i).drop (j - i) := by
      rw [List.drop_drop, Nat.add_sub_of_le (Nat.le_of_lt hij)]
    rw [hj]
    exact List.take_append_drop _ _

/-- Behind some of the tokens, the others cut the rest of the text. -/
theorem of_append {before after : List Token} (h : Cut g t i (before ++ after)) (hne : after ≠ []) :
    Cut g t (i + (before.flatMap Token.literal).length) after := by
  induction before generalizing i with
  | nil => exact h
  | cons a before ih =>
    rw [List.cons_append] at h
    cases hrest : before ++ after with
    | nil => exact absurd (List.append_eq_nil_iff.mp hrest).2 hne
    | cons b rest =>
      rw [hrest] at h
      cases h with
      | @token _ j _ _ hij hj _ h =>
        rw [← hrest] at h
        rw [List.flatMap_cons, List.length_append, List.length_take, List.length_drop,
          ← Nat.add_assoc, show i + min (j - i) (t.length - i) = j by omega]
        exact ih h

/-- A token goes from behind those before it to behind itself. -/
theorem span_eq {before after : List Token} {a : Token} (h : Cut g t i (before ++ a :: after)) :
    a.span = ⟨t.positionAt (i + (before.flatMap Token.literal).length),
      t.positionAt (i + ((before ++ [a]).flatMap Token.literal).length)⟩ := by
  have ha := h.of_append (List.cons_ne_nil a after)
  rw [List.flatMap_append, List.flatMap_singleton, List.length_append, ← Nat.add_assoc]
  generalize i + (before.flatMap Token.literal).length = k at ha ⊢
  cases ha with
  | finish => rfl
  | @token _ j _ _ hij hj _ h =>
    rw [List.length_take, List.length_drop, show k + min (j - k) (t.length - k) = j by omega]

/-- Each token starts where the one before it ends. -/
theorem isChain (h : Cut g t i tokens) :
    tokens.IsChain fun a b => b.span.start = a.span.stop := by
  induction h with
  | finish => exact List.isChain_singleton _
  | token _ _ _ h ih => exact List.isChain_cons.mpr ⟨h.start_of_mem_head?, ih⟩

/-- The tokens before the last one are not empty, and have kinds of their own. -/
theorem of_mem_dropLast (h : Cut g t i tokens) : ∀ a ∈ tokens.dropLast,
    a.literal ≠ [] ∧ (a.kind ∈ g.tokenNames ∨ a.kind = Token.errorKind) := by
  induction h with
  | finish => exact fun a ha => absurd ha (by simp)
  | @token i j _ tokens hij hj hk h ih =>
    intro a ha
    rw [List.dropLast_cons_of_ne_nil h.ne_nil] at ha
    rcases List.mem_cons.mp ha with rfl | ha
    · refine ⟨fun hnil => ?_, hk⟩
      have hlen := congrArg List.length hnil
      rw [List.length_take, List.length_drop, List.length_nil] at hlen
      omega
    · exact ih a ha

/-- Every token stands in the text, at the positions of its two offsets. -/
theorem exists_offsets (h : Cut g t i tokens) : ∀ a ∈ tokens, ∃ j k : Nat,
    i ≤ j ∧ j ≤ k ∧ k ≤ t.length ∧ a.span = ⟨t.positionAt j, t.positionAt k⟩
      ∧ a.literal = (t.drop j).take (k - j) := by
  induction h with
  | finish =>
    intro a ha
    obtain rfl := List.mem_singleton.mp ha
    exact ⟨t.length, t.length, Nat.le_refl _, Nat.le_refl _, Nat.le_refl _, rfl, by simp⟩
  | @token i j _ _ hij hj _ _ ih =>
    intro a ha
    rcases List.mem_cons.mp ha with rfl | ha
    · exact ⟨i, j, Nat.le_refl _, Nat.le_of_lt hij, hj, rfl, rfl⟩
    · obtain ⟨k, l, hjk, hkl, hl, hspan, hliteral⟩ := ih a ha
      exact ⟨k, l, by omega, hkl, hl, hspan, hliteral⟩

/-- Only the end is empty. -/
theorem start_lt_stop (h : Cut g t i tokens) : ∀ a ∈ tokens, a.kind ≠ Token.endKind →
    a.span.start.offset < a.span.stop.offset := by
  induction h with
  | finish =>
    intro a ha hkind
    obtain rfl := List.mem_singleton.mp ha
    exact absurd rfl hkind
  | token hij _ _ _ ih =>
    intro a ha hkind
    rcases List.mem_cons.mp ha with rfl | ha
    · exact Int.ofNat_lt.mpr hij
    · exact ih a ha hkind

/-- A token ends before any later one starts. -/
theorem pairwise (h : Cut g t i tokens) :
    tokens.Pairwise fun a b => a.span.stop.offset ≤ b.span.start.offset := by
  induction h with
  | finish => exact List.pairwise_singleton _ _
  | @token i j _ _ _ _ _ h ih =>
    refine List.pairwise_cons.mpr ⟨fun b hb => ?_, ih⟩
    obtain ⟨k, l, hjk, -, -, hspan, -⟩ := h.exists_offsets b hb
    rw [hspan]
    show (t.positionAt j).offset ≤ (t.positionAt k).offset
    rw [Text.offset_positionAt, Text.offset_positionAt]
    exact Int.ofNat_le.mpr hjk

end Cut

/-! ## A tokenizer cuts -/

/-- The offset of a place. -/
def Rest.offset {t : Text} (r : Rest t) : Nat := t.length - r.left

namespace Tokenizer

variable {t : Text} {z : Tokenizer t}

theorem atEnd_iff : z.atEnd = true ↔ z.rest.offset = t.length := by
  have := z.rest.left_le
  rw [atEnd, decide_eq_true_eq, Rest.offset]
  omega

/-- Whether a tokenizer stands at the position of its place. -/
def Placed (z : Tokenizer t) : Prop := z.position = t.positionAt z.rest.offset

theorem placed_start (g : Grammar) (t : Text) : (start g t).Placed := by
  have h : (start g t).rest.offset = 0 := Nat.sub_self t.length
  rw [Placed, h]
  rfl

/-- **What a step does**: the token covers the text between two offsets, and the tokenizer
stands at the position of the second. -/
theorem Placed.next (h : z.Placed) (he : z.atEnd = false) :
    z.next.2.Placed ∧ z.next.2.grammar = z.grammar
      ∧ z.rest.offset < z.next.2.rest.offset ∧ z.next.2.rest.offset ≤ t.length
      ∧ ∃ kind, (kind ∈ z.grammar.tokenNames ∨ kind = Token.errorKind)
        ∧ z.next.1 = ⟨kind, (t.drop z.rest.offset).take (z.next.2.rest.offset - z.rest.offset),
          ⟨t.positionAt z.rest.offset, t.positionAt z.next.2.rest.offset⟩⟩ := by
  obtain ⟨s, hlt, -, hnext⟩ := next_eq he
  rw [hnext]
  have hleft := z.rest.left_le
  have hoffset : z.rest.offset < s.offset := by
    unfold Rest.offset
    omega
  have hle : s.offset ≤ t.length := Nat.sub_le ..
  have hupTo : z.rest.upTo s = (t.drop z.rest.offset).take (s.offset - z.rest.offset) := by
    rw [Rest.upTo, z.rest.bytes_eq]
    congr 1
    unfold Rest.offset
    omega
  have hstop : z.position.after (z.rest.upTo s) = t.positionAt s.offset := by
    rw [h, hupTo]
    exact t.after_positionAt (Nat.le_of_lt hoffset) hle
  refine ⟨hstop, rfl, hoffset, hle, (z.grammar.longest z.rest).kind, ?_, ?_⟩
  · rcases z.grammar.longest_matches z.rest with ⟨-, hkind⟩ | ⟨p, hp, hkind, -⟩
    · exact .inr hkind
    · exact .inl (hkind ▸ Grammar.mem_tokenNames_of_mem hp)
  · rw [hstop, h, hupTo]

theorem tokens_of_atEnd (he : z.atEnd = true) :
    z.tokens = [⟨Token.endKind, [], .empty z.position⟩] := by
  have hnext : z.next = (⟨Token.endKind, [], .empty z.position⟩, z) := if_pos he
  rw [tokens]
  split
  next first after hn =>
    obtain ⟨rfl, -⟩ := Prod.mk.inj (hnext.symm.trans hn)
    exact dif_pos he

theorem tokens_of_not_atEnd (he : z.atEnd = false) : z.tokens = z.next.1 :: z.next.2.tokens := by
  rw [tokens]
  split
  next first after hn =>
    have hcons : first :: after.tokens = z.next.1 :: z.next.2.tokens := by rw [hn]
    exact (dif_neg (by simp [he])).trans hcons

/-- **A tokenizer cuts what is left of the text.** -/
theorem Placed.cut (h : z.Placed) : Cut z.grammar t z.rest.offset z.tokens := by
  induction hn : z.rest.left using Nat.strongRecOn generalizing z with
  | ind n ih =>
    cases he : z.atEnd with
    | true =>
      rw [tokens_of_atEnd he, h, atEnd_iff.mp he]
      exact .finish
    | false =>
      obtain ⟨hplaced, hgrammar, hlt, hle, kind, hkind, hnext⟩ := h.next he
      have hcut := ih _ (hn ▸ left_next_lt (by simp [he])) hplaced rfl
      rw [hgrammar] at hcut
      rw [tokens_of_not_atEnd he, hnext]
      exact .token hlt hle hkind hcut

end Tokenizer

theorem cut_tokenize (g : Grammar) (t : Text) : Cut g t 0 (tokenize g t) := by
  have h := (Tokenizer.placed_start g t).cut
  rwa [show (Tokenizer.start g t).rest.offset = 0 from Nat.sub_self t.length] at h

/-- **Cutting a text loses nothing.** The last token is the end token, and the others are not
empty and have the kind of a token production or of an error. Joined together the tokens
are the text, the first of them starts at its start and each of the others where the
one before it ends. Every token is the text between the two offsets of its span, and the
positions of the span are those of the offsets. -/
theorem tokenize_lossless (g : Grammar) (t : Text) :
    (tokenize g t).getLast? = some ⟨Token.endKind, [], .empty (t.positionAt t.length)⟩
      ∧ (∀ a ∈ (tokenize g t).dropLast,
        a.literal ≠ [] ∧ (a.kind ∈ g.tokenNames ∨ a.kind = Token.errorKind))
      ∧ (tokenize g t).flatMap Token.literal = t
      ∧ (∀ a ∈ (tokenize g t).head?, a.span.start = t.positionAt 0)
      ∧ ((tokenize g t).IsChain fun a b => b.span.start = a.span.stop)
      ∧ ∀ a ∈ tokenize g t, ∃ i j : Nat, i ≤ j ∧ j ≤ t.length
        ∧ a.span = ⟨t.positionAt i, t.positionAt j⟩ ∧ a.literal = (t.drop i).take (j - i) := by
  have h := cut_tokenize g t
  refine ⟨h.getLast?_eq, h.of_mem_dropLast, h.flatMap_literal, h.start_of_mem_head?, h.isChain,
    fun a ha => ?_⟩
  obtain ⟨i, j, -, hij, hj, hspan, hliteral⟩ := h.exists_offsets a ha
  exact ⟨i, j, hij, hj, hspan, hliteral⟩

/-! ## Cutting by scans -/

/-- **How scans cut a text** from an offset on, one token after the other. -/
inductive Scan.Cuts (g : Grammar) (t : Text) : Nat → List Token → Prop
  | finish : Cuts g t t.length [⟨Token.endKind, [], .empty (t.positionAt t.length)⟩]
  | token {i kind literal tokens} (hi : i < t.length) (hf : Finds g (t.drop i) kind literal) :
      Cuts g t (i + literal.length) tokens →
      Cuts g t i (⟨kind, literal, ⟨t.positionAt i, t.positionAt (i + literal.length)⟩⟩ :: tokens)

namespace Tokenizer

variable {t : Text} {z : Tokenizer t}

/-- The next token is the one that the scans find, if they do. -/
theorem Placed.next_of_finds (h : z.Placed) (hg : ¬ Scan.LeftRecursive z.grammar)
    (he : z.atEnd = false) {kind literal : Text}
    (hf : Scan.Finds z.grammar (t.drop z.rest.offset) kind literal) :
    z.next.2.rest.offset = z.rest.offset + literal.length
      ∧ z.next.1 = ⟨kind, literal,
        ⟨t.positionAt z.rest.offset, t.positionAt (z.rest.offset + literal.length)⟩⟩ := by
  have hbytes : z.rest.bytes = t.drop z.rest.offset := z.rest.bytes_eq
  obtain ⟨-, -, hlt, hle, kind', -, hnext⟩ := h.next he
  have hfound := (next_finds hg he).1
  rw [hnext, hbytes] at hfound
  obtain ⟨rfl, rfl⟩ := hfound.unique hf
  have hlength : z.next.2.rest.offset = z.rest.offset
      + ((t.drop z.rest.offset).take (z.next.2.rest.offset - z.rest.offset)).length := by
    rw [List.length_take, List.length_drop]
    omega
  refine ⟨hlength, ?_⟩
  rw [← hlength]
  exact hnext

/-- **A tokenizer cuts as scans do.** -/
theorem Placed.tokens_eq {i : Nat} {tokens : List Token} (h : z.Placed)
    (hg : ¬ Scan.LeftRecursive z.grammar) (hi : z.rest.offset = i)
    (hc : Scan.Cuts z.grammar t i tokens) : z.tokens = tokens := by
  generalize hgrammar : z.grammar = g at hc
  induction hc generalizing z with
  | finish =>
    rw [tokens_of_atEnd (atEnd_iff.mpr hi), h, hi]
  | token hlt hf _ ih =>
    subst hi hgrammar
    have he : z.atEnd = false :=
      Bool.eq_false_iff.mpr fun he => Nat.ne_of_lt hlt (atEnd_iff.mp he)
    obtain ⟨hplaced, hsame, -⟩ := h.next he
    obtain ⟨hoffset, hnext⟩ := h.next_of_finds hg he hf
    rw [tokens_of_not_atEnd he, hnext, ih hplaced (hsame ▸ hg) hoffset hsame]

end Tokenizer

theorem tokenize_eq_of_cuts {g : Grammar} (hg : ¬ Scan.LeftRecursive g) {t : Text}
    {tokens : List Token} (h : Scan.Cuts g t 0 tokens) : tokenize g t = tokens :=
  (Tokenizer.placed_start g t).tokens_eq hg (Nat.sub_self t.length) h

end Arbor
