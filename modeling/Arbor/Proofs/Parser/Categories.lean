import Arbor.Proofs.Grammar.Hierarchy
import Arbor.Proofs.Parser.Rules

/-!
# Categories

A category is a choice between names, and it leaves no node of its own: the node of the member
that is chosen takes its place. The tree does not say any more that a category was matched
there, but a query for the category still finds the node, because the hierarchy has the member
below it (`Parser.category_transparent`).

Two things could go wrong. The parser looks at how many nodes a category was made from, and would
wrap them if it were not one; and the member that the parser chose at run time has to be one that
the grammar put below the category when it was made, also if categories are nested, or
members of each other. Both are questions about derivations (`Derives.belongs`), in which the
choices are all written down.

This holds of every category that is matched on the way, also in what the parser tries and gives
up. `Parse.Call.Makes` says which calls a call of the parser makes, so these are the categories
among the calls that the first one leads to.
-/

namespace Arbor

open Relation (ReflTransGen)

/-! ## What takes the place of a category -/

/-- **What can take the place of a category** over some tokens: a token, which has no rule, a
terminal of a kind that has no production, or an instance of the category. -/
def Node.StandsFor (g : Grammar) (ts : List Token) (c : Text) (n : Node) : Prop :=
  n.isToken = true
    ∨ (∃ t ∈ ts, ∃ serial, Grammar.isToken t.kind = true ∧ g.has t.kind = false
      ∧ n = .terminal serial (some .nameless) t.literal t.span)
    ∨ n.isA g.hierarchy (some (g.rule c)) = .ok true

/-- The same of some names, with the memberships spelled out: an instance is led to one of the
names by memberships. -/
def Node.Belongs (g : Grammar) (requests : List (Text × Text)) (ts : List Token)
    (names : List Text) (n : Node) : Prop :=
  n.isToken = true
    ∨ (∃ t ∈ ts, ∃ serial, Grammar.isToken t.kind = true ∧ g.has t.kind = false
      ∧ n = .terminal serial (some .nameless) t.literal t.span)
    ∨ ∃ k, n.rule? = some (.production k) ∧ g.has k = true
      ∧ ∃ m ∈ names, g.has m = true ∧ ReflTransGen (g.Membership requests) k m

theorem Node.Belongs.mono {g : Grammar} {requests : List (Text × Text)} {ts : List Token}
    {names names' : List Text} {n : Node} (h : n.Belongs g requests ts names)
    (hsub : names ⊆ names') : n.Belongs g requests ts names' := by
  refine h.imp_right (Or.imp_right ?_)
  rintro ⟨k, hr, hk, m, hm, hd, hkm⟩
  exact ⟨k, hr, hk, m, hsub hm, hd, hkm⟩

/-- The members of a category are the names that its body chooses between. -/
theorem Grammar.exists_choiceOfNames? {g : Grammar} {n : Text} {p : Production}
    (hp : g.get? n = some p) (hc : g.isCategory n = true) :
    ∃ ms, g.members? n = some ms ∧ p.body.choiceOfNames? = some ms := by
  obtain ⟨ms, hms⟩ := Option.isSome_iff_exists.mp hc
  refine ⟨ms, hms, ?_⟩
  rw [members?, hp, Option.bind_some, membersOf?] at hms
  split at hms
  · cases hms
  · exact hms

/-- No token is a category. -/
theorem Grammar.isCategory_of_isToken {g : Grammar} {n : Text} (hn : isToken n = true) :
    g.isCategory n = false := by
  rw [isCategory, members?]
  cases hp : g.get? n with
  | none => rfl
  | some p =>
    obtain ⟨-, rfl⟩ := get?_eq_some_iff.mp hp
    rw [Option.bind_some, membersOf?, if_pos hn]
    rfl

/-- **A category yields what its body does.** -/
theorem Derives.body_of_isCategory {g : Grammar} {ts : List Token} {mark : Mark} {n : Text}
    {p : Production} {i j : Nat} {nodes : List Node} (h : Derives g ts (.name mark n) i j nodes)
    (hp : g.get? n = some p) (hc : g.isCategory n = true) : Derives g ts p.body i j nodes := by
  cases h with
  | keyword _ hp' => cases hp.symm.trans hp'
  | kind hn | spelling hn =>
    rw [Grammar.isCategory_of_isToken hn] at hc
    cases hc
  | composite _ _ hc' => cases hc.symm.trans hc'
  | category _ hp' _ h =>
    obtain rfl := Option.some.inj (hp.symm.trans hp')
    exact h

/-- **A choice of names yields one node, which belongs to one of them.** -/
theorem Derives.belongs {g : Grammar} (requests : List (Text × Text)) {ts : List Token} {e : Expr}
    {i j : Nat} {nodes : List Node} (h : Derives g ts e i j nodes) {names : List Text}
    (he : e.choiceOfNames? = some names) :
    ∃ node, nodes = [node] ∧ node.Belongs g requests ts names := by
  induction h generalizing names with
  | keyword | spelling => exact ⟨_, rfl, .inl rfl⟩
  | @kind _ t _ n serial hn ht hk =>
    refine ⟨_, rfl, .inr ?_⟩
    obtain rfl := Option.some.inj he
    by_cases hd : g.has n = true
    · refine .inr ⟨n, ?_, hd, n, List.mem_singleton_self n, hd, .refl⟩
      show some (g.tokenRule n) = _
      rw [Grammar.tokenRule, if_pos hd]
    · rw [Bool.not_eq_true] at hd
      refine .inl ⟨t, List.mem_of_getElem? ht, serial, hk ▸ hn, hk ▸ hd, ?_⟩
      rw [Grammar.tokenRule, hd]
      rfl
  | @composite _ _ _ n p _ _ _ _ hp =>
    obtain rfl := Option.some.inj he
    have hd : g.has n = true := Grammar.has_of_get? hp
    exact ⟨_, rfl, .inr (.inr ⟨n, rfl, hd, n, List.mem_singleton_self n, hd, .refl⟩)⟩
  | @category _ _ _ n p _ _ hp hc _ ih =>
    obtain rfl := Option.some.inj he
    obtain ⟨ms, hms, hchoice⟩ := Grammar.exists_choiceOfNames? hp hc
    obtain ⟨node, hnode, hbelongs⟩ := ih hchoice
    refine ⟨node, hnode, hbelongs.imp_right (Or.imp_right ?_)⟩
    -- one more membership leads from the member to the category
    rintro ⟨k, hr, hk, m, hm, hd, hkm⟩
    exact ⟨k, hr, hk, n, List.mem_singleton_self n, Grammar.has_of_get? hp,
      hkm.tail (.declared hms hm hd)⟩
  | @altLeft _ _ a b _ _ ih =>
    cases a with
    | name mark n =>
      obtain ⟨rest, -, rfl⟩ := Option.map_eq_some_iff.mp he
      obtain ⟨node, hnode, hbelongs⟩ := ih rfl
      exact ⟨node, hnode, hbelongs.mono (by simp)⟩
    | _ => cases he
  | @altRight _ _ a b _ _ ih =>
    cases a with
    | name mark n =>
      obtain ⟨rest, hrest, rfl⟩ := Option.map_eq_some_iff.mp he
      obtain ⟨node, hnode, hbelongs⟩ := ih hrest
      exact ⟨node, hnode, hbelongs.mono (List.subset_cons_self n rest)⟩
    | _ => cases he
  | _ => cases he

/-- In a grammar that is made of productions and requests, what belongs to a name is found by
it. -/
theorem Node.Belongs.standsFor {ps : List Production} {requests : List (Text × Text)}
    {ts : List Token} {c : Text} {n : Node}
    (h : n.Belongs (.build ps requests) requests ts [c]) :
    n.StandsFor (.build ps requests) ts c := by
  refine h.imp_right (Or.imp_right ?_)
  rintro ⟨k, hr, hk, m, hm, hd, hkm⟩
  obtain rfl := List.mem_singleton.mp hm
  have hrule : (Grammar.build ps requests).rule m = .production m := if_pos hd
  rw [Node.isA_of_rule? hr, hrule, Hierarchy.isA_production rfl,
    decide_eq_true ((Grammar.mem_classes_build hk).mpr hkm)]

/-! ## The calls of a parse -/

namespace Parse

variable {i : ParseInput}

/-- **A call of the parser**: a task at a place, with the productions that are opened there and
the state at that time. -/
structure Call (i : ParseInput) where
  opened : Grammar.Opened
  pos : Nat
  task : Task
  state : State i.size

/-- **The calls that a call makes** itself. -/
inductive Call.Makes : Call i → Call i → Prop
  | group {opened pos e s} :
      Makes ⟨opened, pos, .expr (.group e), s⟩ ⟨opened, pos, .expr e, s⟩
  | option {opened pos e s} :
      Makes ⟨opened, pos, .expr (.option e), s⟩ ⟨opened, pos, .expr e, s⟩
  | repetition {opened pos e s} :
      Makes ⟨opened, pos, .expr (.repetition e), s⟩ ⟨opened, pos, .many e, s⟩
  | altFirst {opened pos e f s} :
      Makes ⟨opened, pos, .expr (.alt e f), s⟩ ⟨opened, pos, .expr e, s⟩
  | altRest {opened pos e f s} :
      Makes ⟨opened, pos, .expr (.alt e f), s⟩
        ⟨opened, pos, .expr f, (expr i opened pos e s).2⟩
  | seqFirst {opened pos e f s} :
      Makes ⟨opened, pos, .expr (.seq e f), s⟩ ⟨opened, pos, .expr e, s⟩
  /-- A sequence goes on behind its first item. -/
  | seqRest {opened pos e f s m} (hm : (expr i opened pos e s).1 = some m) :
      Makes ⟨opened, pos, .expr (.seq e f), s⟩
        ⟨openedAt opened pos m.next, m.next, .expr f, (expr i opened pos e s).2⟩
  | name {opened pos mark n s} (hn : Grammar.isToken n = false) (hp : i.grammar.has n = true) :
      Makes ⟨opened, pos, .expr (.name mark n), s⟩ ⟨opened, pos, .production n, s⟩
  /-- A production that is neither in the table nor opened tries its body. -/
  | body {opened pos n p s} (ht : s.table.get? (n, pos) = none) (ho : n ∉ opened)
      (hp : i.grammar.get? n = some p) :
      Makes ⟨opened, pos, .production n, s⟩ ⟨opened.insert n, pos, .expr p.body, s⟩
  | manyFirst {opened pos e s} :
      Makes ⟨opened, pos, .many e, s⟩ ⟨opened, pos, .expr e, s⟩
  /-- A repetition goes on behind an occurrence that consumed something. -/
  | manyMore {opened pos e s m} (hm : (expr i opened pos e s).1 = some m) (hne : m.next ≠ pos) :
      Makes ⟨opened, pos, .many e, s⟩ ⟨∅, m.next, .many e, (expr i opened pos e s).2⟩

namespace Call

/-- Whether all that the table has at the time of a call is derived, and the call is one that the
parser can make. -/
def Sound (c : Call i) : Prop := c.task.Syntactic ∧ c.state.Entries (Kept i)

/-- An expression leaves the table as good as it was. -/
theorem entries_expr {s : State i.size} (hs : s.Entries (Kept i)) (opened : Grammar.Opened)
    (pos : Nat) (e : Expr) : (expr i opened pos e s).2.Entries (Kept i) :=
  (((run_all i).1 opened pos e s).derives trivial hs).1

/-- **One call passes on what it can rely on.** -/
theorem Sound.of_makes {c c' : Call i} (hc : c.Sound) (h : c.Makes c') : c'.Sound := by
  cases h with
  | group | option | repetition | altFirst | seqFirst | body | manyFirst => exact ⟨trivial, hc.2⟩
  | altRest | seqRest | manyMore => exact ⟨trivial, entries_expr hc.2 _ _ _⟩
  | name hn => exact ⟨hn, hc.2⟩

/-- A production that is called derives the node that it gives. -/
theorem Sound.derives {opened : Grammar.Opened} {pos : Nat} {n : Text} {s : State i.size}
    (h : Sound ⟨opened, pos, .production n, s⟩) {q : Production}
    {hq : i.grammar.get? n = some q} {m : Match Node i.size pos}
    (hm : (production i opened pos n q hq s).1 = some m) (mark : Mark) :
    Derives i.grammar i.tokens.toList (.name mark n) pos m.next [m.value] := by
  have hrun := (run_all i).2.1 opened pos n q hq s
  rw [hm] at hrun
  exact (hrun.derives h.1 h.2).2 _ rfl mark

end Call

end Parse

namespace Parser

variable {p : Parser} {tokens : List Token} {start : Text}

/-- **The calls of a parse**: the start production is called first, if there is one, and
the others follow from there. -/
def Calls (p : Parser) (tokens : List Token) (start : Text) (c : Parse.Call (p.input tokens)) :
    Prop :=
  Grammar.isToken start = false ∧ p.grammar.has start = true
    ∧ ReflTransGen Parse.Call.Makes ⟨∅, 0, .production start, .start _⟩ c

theorem Calls.sound {c : Parse.Call (p.input tokens)} (h : p.Calls tokens start c) : c.Sound := by
  obtain ⟨hn, -, hmade⟩ := h
  induction hmade with
  | refl => exact ⟨hn, Parse.State.entries_start⟩
  | tail _ hmakes ih => exact ih.of_makes hmakes

/-- **Categories are transparent.** Whenever a production is matched in a parse, it yields one
node over the tokens that it consumes. If it is a category, that is the node that its body yields,
and it is a token, a terminal of a kind without a production, or an instance of the category.
No node of a parsed tree has the rule of a category. -/
theorem category_transparent {ps : List Production} {requests : List (Text × Text)}
    (hg : p.grammar = .build ps requests) (tokens : List Token) (start : Text) :
    (∀ opened pos n s, p.Calls tokens start ⟨opened, pos, .production n, s⟩ → ∀ q hq m,
      (Parse.production (p.input tokens) opened pos n q hq s).1 = some m →
        (∀ mark, Derives p.grammar (tokens.filter p.keeps) (.name mark n) pos m.next [m.value])
        ∧ (p.grammar.isCategory n = true →
          Derives p.grammar (tokens.filter p.keeps) q.body pos m.next [m.value]
            ∧ m.value.StandsFor p.grammar (tokens.filter p.keeps) n))
      ∧ ∀ root, p.parse tokens start = .ok root → ∀ n ∈ root.preorder, ∀ c,
        n.rule? = some (.production c) → p.grammar.isCategory c = false := by
  refine ⟨?_, ?_⟩
  · intro opened pos n s hcall q hq m hm
    have hd : ∀ mark, Derives p.grammar (tokens.filter p.keeps) (.name mark n) pos m.next
        [m.value] := fun mark => hcall.sound.derives hm mark
    refine ⟨hd, fun hc => ⟨(hd ⟨[], 0, 0⟩).body_of_isCategory hq hc, ?_⟩⟩
    obtain ⟨node, hnode, hbelongs⟩ := (hd ⟨[], 0, 0⟩).belongs requests rfl
    obtain ⟨rfl, -⟩ := List.cons.inj hnode
    rw [hg] at hbelongs ⊢
    exact hbelongs.standsFor
  · intro root hroot n hn c hr
    have hruled := (derives_root hroot ⟨[], 0, 0⟩).ruled (fun _ => True) (fun _ _ _ _ _ => trivial)
      fun _ _ => trivial
    rw [Node.preorderAll_singleton] at hruled
    cases hruled n hn with
    | token => cases hr
    | composite _ hc =>
      obtain rfl := Rule.production.inj (Option.some.inj hr)
      exact hc
    | @terminal _ name _ _ htoken =>
      -- a terminal has the rule of a token, if it has one with a name
      have hrule : p.grammar.tokenRule name = .production c := Option.some.inj hr
      unfold Grammar.tokenRule at hrule
      split at hrule
      · obtain rfl := Rule.production.inj hrule
        exact Grammar.isCategory_of_isToken htoken
      · cases hrule

end Parser

/-! ## A sample

The first thing that a list calls for is an item, which is a word. -/

namespace Sample

open Parse

theorem calls_item : parser.Calls words (utf8 "list")
    ⟨(∅ : Grammar.Opened).insert (utf8 "list"), 0, .production (utf8 "item"), .start _⟩ := by
  refine ⟨by decide, has_list, ?_⟩
  refine .head (.body Std.DHashMap.get?_empty Std.TreeSet.not_mem_emptyc (get?_grammar _)) ?_
  exact .head .seqFirst (.single (.name (by decide) (Grammar.has_of_get? (get?_grammar _))))

/-- The item is a terminal of its word. -/
theorem exists_production_item : ∃ m, (production (parser.input words)
      ((∅ : Grammar.Opened).insert (utf8 "list")) 0 (utf8 "item") item (get?_grammar _)
      (.start _)).1 = some m
    ∧ m.value.rule? = some (.production (utf8 "Word")) := by
  have hrun := (run_all (parser.input words)).2.1 ((∅ : Grammar.Opened).insert (utf8 "list")) 0
    (utf8 "item") item (get?_grammar _) (.start _)
  have hrun' := hrun.unique (.node Std.DHashMap.get?_empty (by decide) (get?_grammar _)
    (assemble_category isCategory_item _ _ _) (.accept rfl (show 0 < 3 by decide) rfl))
  obtain ⟨m, hm, hvalue⟩ := Option.map_eq_some_iff.mp hrun'.1
  refine ⟨m, hm, ?_⟩
  have hnode := congrArg Match.value hvalue
  obtain ⟨hnode, -⟩ := List.cons.inj hnode
  rw [hnode]
  show some (grammar.tokenRule (utf8 "Word")) = _
  rw [Grammar.tokenRule, if_pos (Grammar.has_of_get? (get?_grammar _))]

end Sample

theorem Parser.category_transparent_words :
    Sample.grammar.isCategory (utf8 "item") = true
      ∧ Sample.parser.Calls Sample.words (utf8 "list")
        ⟨(∅ : Grammar.Opened).insert (utf8 "list"), 0, .production (utf8 "item"), .start _⟩
      ∧ ∃ m, (Parse.production (Sample.parser.input Sample.words)
          ((∅ : Grammar.Opened).insert (utf8 "list")) 0 (utf8 "item") Sample.item
          (Sample.get?_grammar _) (.start _)).1 = some m
        ∧ m.value.isA Sample.grammar.hierarchy (some (Sample.grammar.rule (utf8 "item")))
          = .ok true := by
  obtain ⟨m, hm, hrule⟩ := Sample.exists_production_item
  have hg : Sample.parser.grammar = .build [Sample.list, Sample.item, Sample.word] [] := rfl
  have hmatched := (category_transparent hg Sample.words (utf8 "list")).1 _ _ _ _
    Sample.calls_item Sample.item (Sample.get?_grammar _) m hm
  refine ⟨Sample.isCategory_item, Sample.calls_item, m, hm, ?_⟩
  rcases (hmatched.2 Sample.isCategory_item).2 with htoken | ⟨t, -, serial, -, -, hnode⟩ | hisA
  · cases hn : m.value <;> simp_all [Node.isToken, Node.rule?]
  · rw [hnode] at hrule
    cases hrule
  · exact hisA

end Arbor
