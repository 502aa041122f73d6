import Arbor.Grammar.Lexeme
import Arbor.Proofs.Node.Export
import Arbor.Proofs.Text.Decimal
import Arbor.Proofs.Text.Quoted

/-!
# The outline of a tree can be told

An outline has no brackets. Which node is below which is shown by indentation alone, and what a
node is by what stands behind its name: a mark on tokens, a quoted text on leaves. Still two trees
with one outline have the same shape and, node by node, the same variant, kind and text
(`Node.outline_eq_iff_view_eq`), provided that the names in them are words. A name that begins with
a blank could be taken for indentation, and one with a line feed for two lines.

The argument goes back from the text in two steps. A line can be told from what follows it
(`Node.Label.line_append_inj`), because the indentation ends with its last blank, a name before the
next, and a quoted text shows its own end; so the outline shows the nodes in pre-order with their
depths. And these show the trees (`Node.viewAll_eq_of_labels`), because what follows the nodes below
a node is less deep than they are.
-/

namespace Arbor

namespace Text

/-- **A word**: a text of letters, digits and underscores. -/
structure IsWord (t : Text) : Prop where
  /-- There is a character. -/
  ne_nil : t ≠ []
  /-- There is nothing but letters, digits and underscores. -/
  char_of_mem : ∀ p ∈ t.pieces, ∃ c, p = .char c ∧ Lexeme.isIdentPart c = true

/-- Whether a byte can stand in a word as far as an outline goes: it separates nothing. -/
def isSolid (b : UInt8) : Bool := b ≠ 32 && b ≠ 10

/-- A character with an ASCII byte is that ASCII character, and neither the blank nor the line feed
is a letter. -/
theorem IsWord.isSolid_of_mem {t : Text} (h : t.IsWord) {b : UInt8} (hb : b ∈ t) :
    isSolid b = true := by
  rw [← flatMap_bytes_pieces t] at hb
  obtain ⟨p, hp, hbp⟩ := List.mem_flatMap.mp hb
  obtain ⟨c, rfl, hc⟩ := h.char_of_mem p hp
  have hne : ∀ d : Char, Lexeme.isIdentPart d = false → d.toNat < 0x80 → b.toNat ≠ d.toNat := by
    intro d hd hlt hbd
    have hcd : c = d := Char.ext (UInt32.toNat_inj.mp
      ((Piece.toNat_of_mem_utf8EncodeChar hbp (hbd ▸ hlt)).trans hbd))
    rw [hcd, hd] at hc
    cases hc
  have hblank : b ≠ 32 := fun h => hne ' ' (by decide) (by decide) (congrArg UInt8.toNat h)
  have hbreak : b ≠ 10 := fun h => hne '\n' (by decide) (by decide) (congrArg UInt8.toNat h)
  simp [isSolid, hblank, hbreak]

/-- A string of identifier characters is a word. -/
theorem isWord_utf8 {s : String} (hne : utf8 s ≠ [])
    (h : s.toList.all Lexeme.isIdentPart = true) : (utf8 s).IsWord := by
  refine ⟨hne, fun p hp => ?_⟩
  rw [utf8, pieces_flatMap_utf8EncodeChar] at hp
  obtain ⟨c, hc, rfl⟩ := List.mem_map.mp hp
  exact ⟨c, rfl, List.all_eq_true.mp h c hc⟩

/-- Indentation is made of blanks, two a level. -/
theorem times_blanks (depth : Nat) : times (utf8 "  ") depth = List.replicate (2 * depth) 32 := by
  induction depth with
  | zero => rfl
  | succ depth ih =>
    rw [times, ih]
    rfl

end Text

/-- Forgets where a span is. -/
def Span.forget (_ : Span) : Span := .empty .origin

namespace Node

/-! ## Lines -/

/-- **What the line of a node shows** besides its depth. -/
structure Label where
  /-- The kind. -/
  kind : Text
  /-- Whether there is the mark of tokens. -/
  marked : Bool
  /-- The text of a leaf. -/
  text? : Option Text

/-- The label of a node. -/
def label (n : Node) : Label := ⟨n.kind.toOption.getD [], n.isToken, n.text?⟩

/-- Whether the kind of a node, if it is there, is a word. -/
def IsWorded (n : Node) : Prop := n.isMissing = false → ∃ k, n.kind = .ok k ∧ k.IsWord

/-- What stands in a line behind the mark. -/
def Label.ending (text? : Option Text) : Text :=
  (text?.elim [] fun t => utf8 " " ++ t.quoted) ++ utf8 "\n"

/-- What stands in a line behind the kind. -/
def Label.remark (l : Label) : Text :=
  (if l.marked then utf8 " token" else []) ++ ending l.text?

/-- The line of a label at a depth. -/
def Label.line (depth : Nat) (l : Label) : Text :=
  Text.times (utf8 "  ") depth ++ (l.kind ++ l.remark)

theorem IsWorded.kind_eq {n : Node} (h : n.IsWorded) : n.kind = .ok n.label.kind := by
  cases hn : n.isMissing with
  | true =>
    cases n with
    | missing i => rfl
    | _ => cases hn
  | false =>
    obtain ⟨k, hk, -⟩ := h hn
    simp [label, hk, Except.toOption]

theorem IsWorded.outlineLine_eq {n : Node} (h : n.IsWorded) (depth : Nat) :
    outlineLine false depth n = .ok (n.label.line depth) := by
  unfold outlineLine
  rw [h.kind_eq]
  refine congrArg Except.ok ?_
  have hmarked : n.label.marked = n.isToken := rfl
  have htext : n.label.text? = n.text? := rfl
  rw [Label.line, Label.remark, Label.ending, hmarked, htext]
  cases n.text? <;> simp

/-- Whether a label can be told from its line: its kind is a word, or there is nothing to it. -/
def Label.IsClear (l : Label) : Prop :=
  l.kind.IsWord ∨ (l.kind = [] ∧ l.marked = false ∧ l.text? = none)

theorem IsWorded.isClear {n : Node} (h : n.IsWorded) : n.label.IsClear := by
  cases hn : n.isMissing with
  | true =>
    cases n with
    | missing i => exact .inr ⟨rfl, rfl, rfl⟩
    | _ => cases hn
  | false =>
    obtain ⟨k, hk, hword⟩ := h hn
    have hlabel : k = n.label.kind := Except.ok.inj (hk.symm.trans h.kind_eq)
    exact .inl (hlabel ▸ hword)

/-- A quoted text behind a blank and the end of the line are told apart by the first byte. -/
theorem Label.ending_append_inj {x y : Option Text} {u v : Text}
    (h : ending x ++ u = ending y ++ v) : x = y ∧ u = v := by
  cases x with
  | none =>
    cases y with
    | none => exact ⟨rfl, (List.cons.inj h).2⟩
    | some t => exact absurd (List.cons.inj h).1 (by decide)
  | some s =>
    cases y with
    | none => exact absurd (List.cons.inj h).1 (by decide)
    | some t =>
      have hquoted : s.quoted ++ (utf8 "\n" ++ u) = t.quoted ++ (utf8 "\n" ++ v) := by
        simpa [ending] using h
      obtain ⟨rfl, huv⟩ := Text.quoted_append_inj hquoted
      exact ⟨rfl, (List.cons.inj huv).2⟩

/-- What follows a marked kind begins with a blank and a letter, so it is no ending: a quote follows
the blank there. -/
theorem Label.token_append_ne (x : Option Text) (u v : Text) :
    utf8 " token" ++ u ≠ ending x ++ v := by
  cases x with
  | none => exact fun h => absurd (List.cons.inj h).1 (by decide)
  | some t => exact fun h => absurd (List.cons.inj (List.cons.inj h).2).1 (by decide)

theorem Label.remark_append_inj {l l' : Label} {u v : Text}
    (h : l.remark ++ u = l'.remark ++ v) : l.marked = l'.marked ∧ l.text? = l'.text? ∧ u = v := by
  unfold remark at h
  rw [List.append_assoc, List.append_assoc] at h
  cases hl : l.marked with
  | false =>
    cases hl' : l'.marked with
    | false =>
      rw [hl, hl'] at h
      exact ⟨rfl, ending_append_inj h⟩
    | true =>
      rw [hl, hl'] at h
      exact absurd h.symm (token_append_ne _ _ _)
  | true =>
    cases hl' : l'.marked with
    | false =>
      rw [hl, hl'] at h
      exact absurd h (token_append_ne _ _ _)
    | true =>
      rw [hl, hl'] at h
      exact ⟨rfl, ending_append_inj (List.append_cancel_left h)⟩

/-- The kind of a line ends at a blank or at the end of the line. -/
theorem Label.isSolid_head_remark (l : Label) (u : Text) :
    ∀ b ∈ (l.remark ++ u).head?, Text.isSolid b = false := by
  intro b hb
  obtain ⟨k, marked, x⟩ := l
  cases marked <;> cases x <;> obtain rfl := Option.some.inj hb <;> rfl

theorem Label.IsClear.isSolid_of_mem {l : Label} (h : l.IsClear) :
    ∀ b ∈ l.kind, Text.isSolid b = true := by
  intro b hb
  rcases h with hword | ⟨hnil, -, -⟩
  · exact hword.isSolid_of_mem hb
  · exact absurd (hnil ▸ hb) List.not_mem_nil

/-- The indentation of a line ends with its last blank. -/
theorem Label.IsClear.head_ne {l : Label} (h : l.IsClear) (u : Text) :
    ∀ b ∈ (l.kind ++ l.remark ++ u).head?, (b == 32) = false := by
  rcases h with hword | ⟨hkind, hmarked, htext⟩
  · obtain ⟨b, k, hk⟩ := List.exists_cons_of_ne_nil hword.ne_nil
    have hb := hword.isSolid_of_mem (hk ▸ List.mem_cons_self)
    rw [hk]
    intro c hc
    obtain rfl := Option.some.inj hc
    have hne : b ≠ 32 := fun h => absurd (h ▸ hb) (by decide)
    exact beq_eq_false_iff_ne.mpr hne
  · rw [remark, hkind, hmarked, htext]
    intro c hc
    obtain rfl := Option.some.inj hc
    rfl

/-- **A line shows its depth, its label and where it ends.** -/
theorem Label.line_append_inj {l l' : Label} (hl : l.IsClear) (hl' : l'.IsClear) {d d' : Nat}
    {u v : Text} (h : l.line d ++ u = l'.line d' ++ v) : d = d' ∧ l = l' ∧ u = v := by
  unfold line at h
  rw [Text.times_blanks, Text.times_blanks, List.append_assoc _ (l.kind ++ l.remark),
    List.append_assoc _ (l'.kind ++ l'.remark)] at h
  have hblank : ∀ n, ∀ b ∈ List.replicate n (32 : UInt8), (b == 32) = true := by
    intro n b hb
    rw [List.eq_of_mem_replicate hb]
    rfl
  obtain ⟨hdepth, hrest⟩ := Text.append_inj_of_run (hblank _) (hblank _) (hl.head_ne u)
    (hl'.head_ne v) h
  have hd : 2 * d = 2 * d' := by simpa using congrArg List.length hdepth
  rw [List.append_assoc, List.append_assoc] at hrest
  obtain ⟨hkind, hremark⟩ := Text.append_inj_of_run hl.isSolid_of_mem hl'.isSolid_of_mem
    (l.isSolid_head_remark u) (l'.isSolid_head_remark v) hrest
  obtain ⟨hmarked, htext, huv⟩ := remark_append_inj hremark
  obtain ⟨k, m, x⟩ := l
  obtain ⟨k', m', x'⟩ := l'
  obtain rfl : k = k' := hkind
  obtain rfl : m = m' := hmarked
  obtain rfl : x = x' := htext
  exact ⟨Nat.eq_of_mul_eq_mul_left Nat.two_pos hd, rfl, huv⟩

/-! ## Labels in pre-order -/

/-- The labels of some nodes, each with the depth of the node. -/
def labels (ls : List (Nat × Node)) : List (Nat × Label) := ls.map fun l => (l.1, l.2.label)

/-- Lines one after the other. -/
def lines (ls : List (Nat × Label)) : Text := ls.flatMap fun l => l.2.line l.1

theorem Label.line_append_ne_nil (l : Label) (depth : Nat) (u : Text) : l.line depth ++ u ≠ [] := by
  simp [line, remark, ending, utf8]

/-- **Lines show their labels and depths.** -/
theorem lines_inj {ls ls' : List (Nat × Label)} (hls : ∀ l ∈ ls, l.2.IsClear)
    (hls' : ∀ l ∈ ls', l.2.IsClear) (h : lines ls = lines ls') : ls = ls' := by
  induction ls generalizing ls' with
  | nil =>
    cases ls' with
    | nil => rfl
    | cons l' ls' => exact absurd h.symm (Label.line_append_ne_nil l'.2 l'.1 (lines ls'))
  | cons l ls ih =>
    cases ls' with
    | nil => exact absurd h (Label.line_append_ne_nil l.2 l.1 (lines ls))
    | cons l' ls' =>
      rw [List.forall_mem_cons] at hls hls'
      obtain ⟨hdepth, hlabel, hrest⟩ := Label.line_append_inj hls.1 hls'.1 h
      rw [ih hls.2 hls'.2 hrest, Prod.ext hdepth hlabel]

theorem forall_mem_levels {n : Node} {P : Node → Prop} (h : ∀ m ∈ n.preorder, P m) (depth : Nat) :
    ∀ l ∈ n.levels depth, P l.2 := by
  intro l hl
  refine h l.2 ?_
  rw [← map_snd_levels depth n]
  exact List.mem_map_of_mem hl

/-- The labels of a tree: none where there is no tree. -/
def labelled (n : Node) : List (Nat × Label) := if n.isMissing then [] else labels (n.levels 0)

/-- **The outline of a tree of words** is the lines of its nodes. -/
theorem outline_eq_lines {n : Node} (h : ∀ m ∈ n.preorder, m.IsWorded) :
    n.outline false = .ok (lines n.labelled) := by
  have hlines : ∀ ls : List (Nat × Node), (∀ l ∈ ls, l.2.IsWorded) →
      ls.mapM (fun l => outlineLine false l.1 l.2) = .ok (ls.map fun l => l.2.label.line l.1) := by
    intro ls hls
    induction ls with
    | nil => rfl
    | cons l ls ih =>
      rw [List.forall_mem_cons] at hls
      rw [List.mapM_cons, hls.1.outlineLine_eq, ih hls.2]
      rfl
  unfold outline labelled
  split
  · rfl
  · show ((n.levels 0).mapM fun l => outlineLine false l.1 l.2) >>= _ = _
    rw [hlines _ (forall_mem_levels h 0)]
    refine congrArg Except.ok ?_
    rw [lines, labels, List.flatMap_map]
    rfl

/-! ## From labels to trees -/

/-- A label shows the variant of its node. -/
theorem variant_eq_of_label {a b : Node} (ha : a.IsWorded) (hb : b.IsWorded)
    (h : a.label = b.label) : a.variant = b.variant := by
  have hkind : a.kind = b.kind := by rw [ha.kind_eq, hb.kind_eq, h]
  have hmarked : a.isToken = b.isToken := congrArg Label.marked h
  have htext : a.text? = b.text? := congrArg Label.text? h
  have hmissing : ∀ n : Node, n.IsWorded → n.kind = .ok [] → n.isMissing = true := by
    intro n hn hk
    by_contra hthere
    obtain ⟨k, hk', hword⟩ := hn (Bool.eq_false_iff.mpr hthere)
    exact hword.ne_nil (Except.ok.inj (hk'.symm.trans hk))
  cases a with
  | missing i =>
    have := hmissing b hb hkind.symm
    cases b with
    | missing j => rfl
    | _ => cases this
  | composite i r cs s =>
    cases b with
    | composite => rfl
    | missing j => cases hmissing _ ha hkind
    | terminal => cases htext
    | token => cases hmarked
  | terminal i r t s =>
    cases b with
    | terminal => rfl
    | token => cases hmarked
    | _ => cases htext
  | token i k t s =>
    cases b with
    | token => rfl
    | _ => cases hmarked

/-- What follows the first of some labels is at most as deep. -/
theorem head?_labels_append {depth : Nat} {us : List (Nat × Label)}
    (hus : ∀ l ∈ us.head?, l.1 < depth) (ns : List Node) :
    ∀ l ∈ (labels (levelsAll depth ns) ++ us).head?, l.1 < depth + 1 := by
  intro l hl
  cases ns with
  | nil => exact Nat.lt_succ_of_lt (hus l hl)
  | cons n ns =>
    have hdepth : l.1 = depth := by
      cases n <;> exact (congrArg Prod.fst (Option.some.inj hl)).symm
    exact Nat.lt_succ_of_le (Nat.le_of_eq hdepth)

theorem levels_eq_cons (depth : Nat) (n : Node) :
    n.levels depth = (depth, n) :: levelsAll (depth + 1) n.children := by
  cases n <;> rfl

theorem levelsAll_cons (depth : Nat) (n : Node) (ns : List Node) :
    levelsAll depth (n :: ns)
      = (depth, n) :: (levelsAll (depth + 1) n.children ++ levelsAll depth ns) := by
  rw [levelsAll, levels_eq_cons, List.cons_append]

mutual

/-- A tree is shown by its labels, in front of any that are not below it. -/
theorem view_eq_of_labels (a b : Node) (ha : ∀ n ∈ a.preorder, n.IsWorded)
    (hb : ∀ n ∈ b.preorder, n.IsWorded) {depth : Nat} {us vs : List (Nat × Label)}
    (hus : ∀ l ∈ us.head?, l.1 < depth + 1) (hvs : ∀ l ∈ vs.head?, l.1 < depth + 1)
    (h : labels (a.levels depth) ++ us = labels (b.levels depth) ++ vs) :
    a.view Span.forget = b.view Span.forget ∧ us = vs := by
  rw [levels_eq_cons, levels_eq_cons] at h
  obtain ⟨hhead, hrest⟩ := List.cons.inj h
  have hlabel : a.label = b.label := congrArg Prod.snd hhead
  have hwa := ha a a.mem_preorder_self
  have hwb := hb b b.mem_preorder_self
  have hkind : a.kind = .ok a.label.kind := hwa.kind_eq
  have hkind' : b.kind = .ok a.label.kind := by rw [hwb.kind_eq, hlabel]
  have hvariant := variant_eq_of_label hwa hwb hlabel
  cases a with
  | composite i r cs s =>
    cases b with
    | composite i' r' cs' s' =>
      obtain ⟨hchildren, hend⟩ := viewAll_eq_of_labels cs cs'
        (fun n hn => ha n (List.mem_cons_of_mem _ hn))
        (fun n hn => hb n (List.mem_cons_of_mem _ hn)) hus hvs hrest
      have hshown := (elim_name_eq_ok_iff.mp hkind).trans (elim_name_eq_ok_iff.mp hkind').symm
      rw [view, view, Rule.seen_eq_of_shown hshown, hchildren]
      exact ⟨rfl, hend⟩
    | _ => cases hvariant
  | terminal i r t s =>
    cases b with
    | terminal i' r' t' s' =>
      have hshown := (elim_name_eq_ok_iff.mp hkind).trans (elim_name_eq_ok_iff.mp hkind').symm
      obtain rfl : t = t' := Option.some.inj (congrArg Label.text? hlabel)
      rw [view, view, Rule.seen_eq_of_shown hshown]
      exact ⟨rfl, hrest⟩
    | _ => cases hvariant
  | token i k t s =>
    cases b with
    | token i' k' t' s' =>
      obtain rfl : k = k' := congrArg Label.kind hlabel
      obtain rfl : t = t' := Option.some.inj (congrArg Label.text? hlabel)
      exact ⟨rfl, hrest⟩
    | _ => cases hvariant
  | missing i =>
    cases b with
    | missing i' => exact ⟨rfl, hrest⟩
    | _ => cases hvariant

/-- **Trees of one depth are shown by their labels**, in front of any that are less deep. -/
theorem viewAll_eq_of_labels (as bs : List Node) (ha : ∀ n ∈ preorderAll as, n.IsWorded)
    (hb : ∀ n ∈ preorderAll bs, n.IsWorded) {depth : Nat} {us vs : List (Nat × Label)}
    (hus : ∀ l ∈ us.head?, l.1 < depth) (hvs : ∀ l ∈ vs.head?, l.1 < depth)
    (h : labels (levelsAll depth as) ++ us = labels (levelsAll depth bs) ++ vs) :
    viewAll Span.forget as = viewAll Span.forget bs ∧ us = vs := by
  cases as with
  | nil =>
    cases bs with
    | nil => exact ⟨rfl, h⟩
    | cons b bs =>
      -- the first of `us` would be `b`, which is too deep
      rw [levelsAll_cons] at h
      have hhead : us.head? = some (depth, b.label) := congrArg List.head? h
      exact absurd (hus _ hhead) (Nat.lt_irrefl depth)
  | cons a as =>
    cases bs with
    | nil =>
      rw [levelsAll_cons] at h
      have hhead : vs.head? = some (depth, a.label) := (congrArg List.head? h).symm
      exact absurd (hvs _ hhead) (Nat.lt_irrefl depth)
    | cons b bs =>
      rw [preorderAll_cons, List.forall_mem_append] at ha hb
      rw [levelsAll, levelsAll, labels, labels, List.map_append, List.map_append,
        List.append_assoc, List.append_assoc] at h
      obtain ⟨hfirst, hrest⟩ := view_eq_of_labels a b ha.1 hb.1
        (head?_labels_append hus as) (head?_labels_append hvs bs) h
      obtain ⟨hothers, hend⟩ := viewAll_eq_of_labels as bs ha.2 hb.2 hus hvs hrest
      rw [viewAll, viewAll, hfirst, hothers]
      exact ⟨rfl, hend⟩

end

/-- **A tree is shown by its labels**, also that there is none. -/
theorem view_eq_of_labelled {a b : Node} (ha : ∀ n ∈ a.preorder, n.IsWorded)
    (hb : ∀ n ∈ b.preorder, n.IsWorded) (h : a.labelled = b.labelled) :
    a.view Span.forget = b.view Span.forget := by
  have hnone : ∀ n : Node, n.labelled = [] → n.view Span.forget = .missing 0 := by
    intro n hn
    cases n with
    | missing i => rfl
    | _ => cases hn
  cases hma : a.isMissing with
  | true =>
    have hempty : a.labelled = [] := if_pos hma
    rw [hnone a hempty, hnone b (h.symm.trans hempty)]
  | false =>
    have hlabels : labels (a.levels 0) = b.labelled := (if_neg (by simp [hma])).symm.trans h
    cases hmb : b.isMissing with
    | true =>
      rw [levels_eq_cons, labelled, if_pos hmb] at hlabels
      cases hlabels
    | false =>
      rw [labelled, if_neg (by simp [hmb])] at hlabels
      refine (view_eq_of_labels a b ha hb (fun l hl => ?_) (fun l hl => ?_)
        (congrArg (· ++ []) hlabels)).1
      · cases hl
      · cases hl

/-! ## From trees to labels -/

theorem label_view (place : Span → Span) (n : Node) : (n.view place).label = n.label := by
  cases n with
  | composite i r cs s =>
    have hkind : (composite 0 (some (Rule.seen r)) (viewAll place cs) (place s)).kind
        = (composite i r cs s).kind := by
      rw [kind, kind, elim_name_eq, elim_name_eq, Rule.shown_seen]
    rw [view, label, label, hkind]
    rfl
  | terminal i r t s =>
    have hkind : (terminal 0 (some (Rule.seen r)) t (place s)).kind = (terminal i r t s).kind := by
      rw [kind, kind, elim_name_eq, elim_name_eq, Rule.shown_seen]
    rw [view, label, label, hkind]
    rfl
  | token i k t s => rfl
  | missing i => rfl

mutual

/-- What is seen of a tree has the labels of the tree. -/
theorem labels_view (place : Span → Span) (depth : Nat) (n : Node) :
    labels ((n.view place).levels depth) = labels (n.levels depth) := by
  cases n with
  | composite i r cs s =>
    have hhead := label_view place (composite i r cs s)
    rw [view] at hhead ⊢
    rw [levels, levels, labels, labels, List.map_cons, List.map_cons, hhead]
    exact congrArg _ (labels_viewAll place (depth + 1) cs)
  | terminal i r t s => exact congrArg (fun l => [(depth, l)]) (label_view place (terminal i r t s))
  | token i k t s => rfl
  | missing i => rfl

theorem labels_viewAll (place : Span → Span) (depth : Nat) (ns : List Node) :
    labels (levelsAll depth (viewAll place ns)) = labels (levelsAll depth ns) := by
  cases ns with
  | nil => rfl
  | cons n ns =>
    have hfirst := labels_view place depth n
    have hrest := labels_viewAll place depth ns
    unfold labels at hfirst hrest ⊢
    rw [viewAll, levelsAll, levelsAll, List.map_append, List.map_append, hfirst, hrest]

end

theorem labelled_view (place : Span → Span) (n : Node) :
    (n.view place).labelled = n.labelled := by
  have hmissing : (n.view place).isMissing = n.isMissing := by cases n <;> rfl
  rw [labelled, labelled, hmissing, labels_view]

/-- **The outline determines the tree.** Two trees whose names and kinds are words have outlines,
and these are the same just if the trees have one shape and, node by node, the same variant, kind
and text. -/
theorem outline_eq_iff_view_eq {a b : Node} (ha : ∀ n ∈ a.preorder, n.IsWorded)
    (hb : ∀ n ∈ b.preorder, n.IsWorded) :
    ∃ t u, a.outline false = .ok t ∧ b.outline false = .ok u
      ∧ (t = u ↔ a.view Span.forget = b.view Span.forget) := by
  refine ⟨_, _, outline_eq_lines ha, outline_eq_lines hb, ?_, ?_⟩
  · intro h
    have hclear : ∀ {n : Node}, (∀ m ∈ n.preorder, m.IsWorded) →
        ∀ l ∈ n.labelled, l.2.IsClear := by
      intro n hn l hl
      unfold labelled at hl
      split at hl
      · cases hl
      · obtain ⟨m, hm, rfl⟩ := List.mem_map.mp hl
        exact (forall_mem_levels hn 0 m hm).isClear
    exact view_eq_of_labelled ha hb (lines_inj (hclear ha) (hclear hb) h)
  · intro h
    rw [← labelled_view Span.forget a, h, labelled_view]

end Node

namespace Sample

/-- A list of an item, a word and a comma, where the word is in the item or beside it. -/
def hung (inside : Bool) : Node :=
  let item := some (.plain (utf8 "item_1"))
  let word := .terminal 2 (some (.production (utf8 "Word"))) [0xFF, 10] ⟨⟨0, 1, 1⟩, ⟨2, 2, 1⟩⟩
  let comma := .token 3 (utf8 "Literal") (utf8 ",") ⟨⟨2, 2, 1⟩, ⟨3, 2, 2⟩⟩
  .composite 0 (some (.production (utf8 "list")))
    (if inside then [.composite 1 item [word] ⟨⟨0, 1, 1⟩, ⟨2, 2, 1⟩⟩, comma]
      else [.composite 1 item [] ⟨⟨0, 1, 1⟩, ⟨0, 1, 1⟩⟩, word, comma])
    ⟨⟨0, 1, 1⟩, ⟨3, 2, 2⟩⟩

theorem isWorded_hung (inside : Bool) : ∀ n ∈ (hung inside).preorder, n.IsWorded := by
  have hnode : ∀ {n : Node} {s : String}, n.kind = .ok (utf8 s) → utf8 s ≠ [] →
      s.toList.all Lexeme.isIdentPart = true → n.IsWorded :=
    fun hk hne hs _ => ⟨_, hk, Text.isWord_utf8 hne hs⟩
  cases inside <;>
  · show ∀ n ∈ [_, _, _, _], _
    simp only [List.forall_mem_cons]
    exact ⟨hnode rfl (List.cons_ne_nil _ _) rfl, hnode rfl (List.cons_ne_nil _ _) rfl,
      hnode rfl (List.cons_ne_nil _ _) rfl, hnode rfl (List.cons_ne_nil _ _) rfl,
      fun n hn => absurd hn List.not_mem_nil⟩

end Sample

/-- The same nodes in the same order, hung up in another way, have another outline. -/
theorem Node.outline_eq_iff_view_eq_hung :
    ∃ t u, (Sample.hung true).outline false = .ok t ∧ (Sample.hung false).outline false = .ok u
      ∧ t ≠ u := by
  obtain ⟨t, u, ht, hu, h⟩ :=
    outline_eq_iff_view_eq (Sample.isWorded_hung true) (Sample.isWorded_hung false)
  refine ⟨t, u, ht, hu, fun htu => ?_⟩
  exact absurd (congrArg (fun n => n.children.length) (h.mp htu)) (by decide)

end Arbor
