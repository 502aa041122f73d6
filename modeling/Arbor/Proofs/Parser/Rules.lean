import Arbor.Node.Export
import Arbor.Proofs.Grammar.Verification
import Arbor.Proofs.Parser.Derivation

/-!
# The rules of parsed trees

Which rules can the nodes of a parsed tree carry? A composite has the rule of the production
that made it, and that is never a category. A terminal has the rule of the token that the
grammar refers to there, and if the grammar refers to a token that it does not define, the
rule is nameless, and to ask the node for its kind or its classes is a fault.

Verifying a grammar rules this out (`Parser.rules_of_verify`). The parser can descend into any
production, depending on the tokens, so the names in all bodies have to be defined; a grammar
without flaws is one where the search from its start gets to all productions and finds no
undefined name in any of them (`Grammar.verify_eq_nil_iff`).
-/

namespace Arbor

/-! ## Nodes of a derivation -/

/-- **What the nodes of a derivation can be**, if the grammar refers only to names that
satisfy `Referred`. -/
inductive Node.Ruled (g : Grammar) (Referred : Text → Prop) : Node → Prop
  | token {serial kind text span} : Ruled g Referred (.token serial kind text span)
  /-- A terminal is of a token that is referred to, defined or not. -/
  | terminal {serial n text span} (hn : Grammar.isToken n = true) (hr : Referred n) :
      Ruled g Referred (.terminal serial (some (g.tokenRule n)) text span)
  /-- A composite is of a production, but not of a category. -/
  | composite {serial n children span} (hp : g.has n = true) (hc : g.isCategory n = false) :
      Ruled g Referred (.composite serial (some (.production n)) children span)

theorem Derives.ruled {g : Grammar} (Referred : Text → Prop)
    (hg : ∀ n p, g.get? n = some p → ∀ r ∈ p.body.references, Referred r.2) {ts : List Token}
    {e : Expr} {i j : Nat} {nodes : List Node} (h : Derives g ts e i j nodes)
    (he : ∀ r ∈ e.references, Referred r.2) :
    ∀ n ∈ Node.preorderAll nodes, n.Ruled g Referred := by
  induction h with
  | empty | absent | done => exact fun n hn => absurd hn List.not_mem_nil
  | literal | range | keyword | spelling =>
    intro n hn
    rw [List.mem_singleton.mp hn]
    exact .token
  | kind ht =>
    intro n hn
    rw [List.mem_singleton.mp hn]
    exact .terminal ht (he _ List.mem_cons_self)
  | @composite _ _ _ n p _ _ _ _ hp hc _ ih =>
    intro m hm
    rw [Node.preorderAll_singleton, Node.preorder_composite] at hm
    rcases List.mem_cons.mp hm with rfl | hm
    · exact .composite (Grammar.has_of_get? hp) hc
    · exact ih (hg n p hp) m hm
  | @category _ _ _ n p _ _ hp _ _ ih => exact ih (hg n p hp)
  | group _ ih | present _ ih => exact ih he
  | altLeft _ ih => exact ih fun r hr => he r (List.mem_append_left _ hr)
  | altRight _ ih => exact ih fun r hr => he r (List.mem_append_right _ hr)
  | seq _ _ ih₁ ih₂ =>
    intro m hm
    rw [Node.preorderAll_append] at hm
    rcases List.mem_append.mp hm with hm | hm
    · exact ih₁ (fun r hr => he r (List.mem_append_left _ hr)) m hm
    · exact ih₂ (fun r hr => he r (List.mem_append_right _ hr)) m hm
  | more _ _ ih₁ ih₂ =>
    intro m hm
    rw [Node.preorderAll_append] at hm
    exact (List.mem_append.mp hm).elim (ih₁ he m) (ih₂ he m)

/-! ## Nodes with a name

A fault about a rule needs a node whose rule is nameless. Where there is none, everything
that names rules has an answer, for the whole tree. -/

/-- Whether a node is a token, or has the rule of a production. -/
def Node.Named (n : Node) : Prop := n.isToken = true ∨ ∃ name, n.rule? = some (.production name)

namespace Node

variable {n : Node}

theorem Named.exists_kind (h : n.Named) : ∃ k, n.kind = .ok k := by
  cases n with
  | token serial kind text span => exact ⟨kind, rfl⟩
  | missing => exact ⟨[], rfl⟩
  | composite _ rule | terminal _ rule =>
    obtain ⟨name, hr⟩ := h.resolve_left (by simp [isToken])
    obtain rfl : rule = some (.production name) := hr
    exact ⟨name, rfl⟩

theorem Named.exists_extent (h : n.Named) : ∃ s, n.extent = .ok s := by
  cases n with
  | missing =>
    obtain ⟨name, hr⟩ := h.resolve_left (by simp [isToken])
    cases hr
  | _ => exact ⟨_, rfl⟩

theorem isA_of_rule? {r : Rule} (hr : n.rule? = some r) (hierarchy : Hierarchy) (cls : Rule) :
    n.isA hierarchy (some cls) = hierarchy.isA r cls := by
  unfold isA
  rw [hr]

theorem Named.exists_isA (h : n.Named) (hierarchy : Hierarchy) (cls : Option Rule) :
    ∃ b, n.isA hierarchy cls = .ok b := by
  cases hr : n.rule? with
  | none =>
    unfold isA
    rw [hr]
    exact ⟨false, rfl⟩
  | some r =>
    -- a token has no rule, so this is the rule of a production
    obtain ⟨name, hname⟩ : ∃ name, n.rule? = some (.production name) := by
      refine h.resolve_left fun ht => ?_
      cases n <;> simp_all [isToken, rule?]
    cases cls with
    | none =>
      unfold isA
      rw [hr]
      exact ⟨false, rfl⟩
    | some c =>
      rw [isA_of_rule? hname]
      unfold Hierarchy.isA
      cases c.name? with
      | none => exact ⟨false, rfl⟩
      | some cn => exact ⟨_, rfl⟩

theorem Named.exists_outlineLine (h : n.Named) (withSpans : Bool) (depth : Nat) :
    ∃ t, outlineLine withSpans depth n = .ok t := by
  obtain ⟨k, hk⟩ := h.exists_kind
  obtain ⟨s, hs⟩ := h.exists_extent
  unfold outlineLine
  rw [hk]
  cases withSpans with
  | true =>
    rw [hs]
    exact ⟨_, rfl⟩
  | false => exact ⟨_, rfl⟩

theorem exists_mapM_eq_ok {α β ε : Type} {f : α → Except ε β} {l : List α}
    (h : ∀ a ∈ l, ∃ b, f a = .ok b) : ∃ bs, l.mapM f = .ok bs := by
  induction l with
  | nil => exact ⟨[], rfl⟩
  | cons a l ih =>
    obtain ⟨b, hb⟩ := h a List.mem_cons_self
    obtain ⟨bs, hbs⟩ := ih fun c hc => h c (List.mem_cons_of_mem a hc)
    refine ⟨b :: bs, ?_⟩
    rw [List.mapM_cons, hb, hbs]
    rfl

/-- A tree of such nodes has an outline. -/
theorem exists_outline (h : ∀ m ∈ n.preorder, m.Named) (withSpans : Bool) :
    ∃ t, n.outline withSpans = .ok t := by
  have hline : ∀ l ∈ n.levels 0, ∃ t, outlineLine withSpans l.1 l.2 = .ok t := by
    intro l hl
    have hm : l.2 ∈ (n.levels 0).map Prod.snd := List.mem_map_of_mem hl
    rw [map_snd_levels] at hm
    exact (h l.2 hm).exists_outlineLine withSpans l.1
  obtain ⟨ts, hts⟩ := exists_mapM_eq_ok hline
  unfold outline
  split
  · exact ⟨[], rfl⟩
  · refine ⟨ts.flatten, ?_⟩
    show ((n.levels 0).mapM fun l => outlineLine withSpans l.1 l.2) >>= _ = _
    rw [hts]
    rfl

mutual

/-- A tree of such nodes has a JSON form. -/
theorem exists_toJson (n : Node) (h : ∀ m ∈ n.preorder, m.Named) : ∃ j, n.toJson = .ok j := by
  cases n with
  | composite serial rule children span =>
    obtain ⟨k, hk⟩ := (h _ List.mem_cons_self).exists_kind
    obtain ⟨js, hjs⟩ := exists_toJsonAll children fun m hm => h m (List.mem_cons_of_mem _ hm)
    rw [toJson, hjs]
    replace hk : rule.elim (.ok []) Rule.name = .ok k := hk
    rw [hk]
    exact ⟨_, rfl⟩
  | terminal serial rule text span =>
    obtain ⟨k, hk⟩ := (h _ List.mem_cons_self).exists_kind
    rw [toJson]
    replace hk : rule.elim (.ok []) Rule.name = .ok k := hk
    rw [hk]
    exact ⟨_, rfl⟩
  | token serial kind text span => exact ⟨_, rfl⟩
  | missing serial =>
    obtain ⟨s, hs⟩ := (h _ List.mem_cons_self).exists_extent
    cases hs

theorem exists_toJsonAll (ns : List Node) (h : ∀ m ∈ preorderAll ns, m.Named) :
    ∃ js, toJsonAll ns = .ok js := by
  cases ns with
  | nil => exact ⟨[], rfl⟩
  | cons n ns =>
    rw [preorderAll_cons] at h
    obtain ⟨j, hj⟩ := exists_toJson n fun m hm => h m (List.mem_append_left _ hm)
    obtain ⟨js, hjs⟩ := exists_toJsonAll ns fun m hm => h m (List.mem_append_right _ hm)
    refine ⟨j :: js, ?_⟩
    rw [toJsonAll, hj, hjs]
    rfl

end

end Node

/-! ## Verified grammars -/

namespace Parser

/-- **A verified grammar makes no node without a name.** If a grammar has no flaws from a start
production, then in every tree that it parses from there, whatever the tokens, each composite
and each terminal has the rule of a production of the grammar. So every node has a kind, an outline
and a JSON form, and an answer to whether it is an instance of a class, in any hierarchy. -/
theorem rules_of_verify {p : Parser} {tokens : List Token} {start : Text} {root : Node}
    (hv : p.grammar.verify start = []) (h : p.parse tokens start = .ok root) :
    ∀ n ∈ root.preorder,
      (n.isToken = true ∨ ∃ name, p.grammar.has name = true ∧ n.rule? = some (.production name))
        ∧ (∃ k, n.kind = .ok k)
        ∧ (∀ withSpans, ∃ t, n.outline withSpans = .ok t)
        ∧ (∃ j, n.toJson = .ok j)
        ∧ ∀ hierarchy cls, ∃ b, n.isA hierarchy cls = .ok b := by
  rw [Grammar.verify_eq_nil_iff] at hv
  have hruled : ∀ n ∈ root.preorder, n.isToken = true
      ∨ ∃ name, p.grammar.has name = true ∧ n.rule? = some (.production name) := by
    intro n hn
    have hreferred : ∀ r ∈ (Expr.name ⟨[], 0, 0⟩ start).references, p.grammar.has r.2 = true := by
      intro r hr
      rw [List.mem_singleton.mp hr]
      exact (run_of_parse_eq_ok h).2.1
    have hd := (derives_root h _).ruled (p.grammar.has · = true) hv.2.1 hreferred
    rw [Node.preorderAll_singleton] at hd
    cases hd n hn with
    | token => exact .inl rfl
    | @terminal _ name _ _ _ hr =>
      refine .inr ⟨name, hr, ?_⟩
      show some (p.grammar.tokenRule name) = _
      rw [Grammar.tokenRule, if_pos hr]
    | @composite _ name _ _ hp => exact .inr ⟨name, hp, rfl⟩
  have hnamed : ∀ n ∈ root.preorder, n.Named := fun n hn =>
    (hruled n hn).imp_right fun ⟨name, _, hr⟩ => ⟨name, hr⟩
  intro n hn
  have hbelow : ∀ m ∈ n.preorder, m.Named := fun m hm => hnamed m (Node.preorder_subset root hn hm)
  exact ⟨hruled n hn, (hnamed n hn).exists_kind, Node.exists_outline hbelow,
    Node.exists_toJson n hbelow, (hnamed n hn).exists_isA⟩

end Parser

/-! ## A sample -/

namespace Sample

theorem startFlaws_grammar : grammar.startFlaws (utf8 "list") = [] := by
  rw [Grammar.startFlaws, get?_grammar]
  rfl

/-- The list is where the search starts, it refers to items, and they refer to words. -/
theorem reached_grammar : ∀ q ∈ grammar.productions, q.name ∈ grammar.reached (utf8 "list") := by
  have hnames : ∀ q ∈ grammar.productions, q.name ∈ Std.HashSet.ofList grammar.names := by
    intro q hq
    rw [Std.HashSet.mem_ofList, List.contains_iff_mem]
    exact List.mem_map_of_mem hq
  rw [productions_grammar] at hnames
  have hlist : Reachable (fun n => (grammar.referencesOf n).map (·.2)) (.ofList grammar.names)
      (grammar.roots (utf8 "list")) (utf8 "list") := by
    refine .root ?_ (hnames list (by simp))
    rw [Grammar.roots, if_pos startFlaws_grammar]
    exact List.mem_cons_self
  have hitem := Reachable.step (hnames item (by simp)) (v := utf8 "list") (by
    rw [Grammar.referencesOf, get?_grammar]
    decide) hlist
  have hword := Reachable.step (hnames word (by simp)) (v := utf8 "item") (by
    rw [Grammar.referencesOf, get?_grammar]
    decide) hitem
  rw [productions_grammar]
  simp only [List.mem_cons, List.not_mem_nil, or_false, forall_eq_or_imp, forall_eq]
  exact ⟨mem_breadthFirst_iff.mpr hword, mem_breadthFirst_iff.mpr hitem,
    mem_breadthFirst_iff.mpr hlist⟩

theorem verify_grammar : grammar.verify (utf8 "list") = [] := by
  refine Grammar.verify_eq_nil_iff.mpr ⟨startFlaws_grammar, ?_, reached_grammar⟩
  intro n p hp r hr
  have hmem := (Grammar.get?_eq_some_iff.mp hp).1
  rw [productions_grammar] at hmem
  -- of all three bodies, items and words are what is referred to
  have hnames : ∀ q ∈ [word, item, list], ∀ r ∈ q.body.references,
      r.2 ∈ [utf8 "Word", utf8 "item", utf8 "list"] := by decide
  rw [Grammar.has_iff_mem_names, Grammar.names, productions_grammar]
  exact hnames p hmem r hr

end Sample

theorem Parser.rules_of_verify_words :
    Sample.grammar.verify (utf8 "list") = []
      ∧ ∃ root, Sample.parser.parse Sample.words (utf8 "list") = .ok root
        ∧ (∀ n ∈ root.preorder, n.isToken = true
          ∨ ∃ name, Sample.grammar.has name = true ∧ n.rule? = some (.production name))
        ∧ (∃ t, root.outline true = .ok t) ∧ ∃ j, root.toJson = .ok j := by
  obtain ⟨root, hroot⟩ := Sample.exists_parse_words
  have hrules := rules_of_verify Sample.verify_grammar hroot
  obtain ⟨-, -, houtline, hjson, -⟩ := hrules root root.mem_preorder_self
  exact ⟨Sample.verify_grammar, root, hroot, fun n hn => (hrules n hn).1, houtline true, hjson⟩

end Arbor
