import Arbor.Proofs.Parser.Derivation

/-!
# How a tree lies over its tokens

A node of a parsed tree stands for the tokens from one index up to another, and its span
follows from them and from the nodes below it. `Laid i pos next nodes` says so of some
nodes, one after the other: a leaf is the token at its index, and a composite lies where
its children do and has the span that `Parse.spanOf` gives to them there. The indices are
needed because a composite without children takes its place from the token that comes
next, which is not in the tree below it.

The parser lays out what it matches (`Parse.Run.laid`). That depends on nothing but the
tokens, so it is true of a match that comes out of the table as well.
-/

namespace Arbor

/-- Where the token at an index starts; behind the last one, the end of the input. -/
def ParseInput.edge (i : ParseInput) (pos : Nat) : Position :=
  ((i.tokens[pos]?).map (·.span.start)).getD i.stop

/-- **How nodes lie over the tokens** from one index up to another. -/
inductive Laid (i : ParseInput) : Nat → Nat → List Node → Prop
  | nil {pos} : Laid i pos pos []
  | leaf {pos next t n ns} (ht : i.tokens[pos]? = some t) (hn : n.IsLeafOf i.grammar t) :
      Laid i (pos + 1) next ns → Laid i pos next (n :: ns)
  | composite {pos mid next serial rule cs ns} : Laid i pos mid cs → Laid i mid next ns →
      Laid i pos next (.composite serial rule cs (Parse.spanOf i pos cs) :: ns)

namespace Laid

variable {i : ParseInput} {pos mid next : Nat} {ns ms : List Node}

theorem append (h : Laid i pos mid ns) (h' : Laid i mid next ms) :
    Laid i pos next (ns ++ ms) := by
  induction h with
  | nil => exact h'
  | leaf ht hn _ ih => exact .leaf ht hn (ih h')
  | composite hc _ _ ih => exact .composite hc (ih h')

end Laid

namespace Parse

variable {i : ParseInput}

theorem spanOf_nil (pos : Nat) : spanOf i pos [] = .empty (i.edge pos) := by
  unfold ParseInput.edge
  cases h : i.tokens[pos]? <;> simp [spanOf, h]

theorem spanOf_cons (pos : Nat) (n : Node) (ns : List Node) :
    spanOf i pos (n :: ns)
      = ⟨n.span.start, ((n :: ns).getLast (List.cons_ne_nil n ns)).span.stop⟩ := by
  unfold spanOf
  rw [List.head?_cons, List.getLast?_eq_some_getLast (List.cons_ne_nil n ns)]

/-! ## The parser lays out what it matches -/

/-- Whether what the table has for a production is laid out. -/
def LaidOut (i : ParseInput) (_ : Text) (pos : Nat) (r : Option (Match Node i.size pos)) : Prop :=
  ∀ m, r = some m → Laid i pos m.next [m.value]

/-- What a token becomes is a leaf of it. -/
theorem isLeafOf_build {g : Grammar} {x : Expectation} {t : Token} {build : Nat → Node}
    (hb : x.build g t = some build) (serial : Nat) : (build serial).IsLeafOf g t := by
  cases x with
  | text v =>
    obtain ⟨-, rfl⟩ := spelled_eq_some_iff.mp (show spelled (· = v) t = some build from hb)
    exact ⟨serial, .inl rfl⟩
  | range lo hi =>
    obtain ⟨-, rfl⟩ := spelled_eq_some_iff.mp hb
    exact ⟨serial, .inl rfl⟩
  | kind n =>
    rcases named_eq_some_iff.mp hb with ⟨rfl, rfl⟩ | ⟨-, -, rfl⟩
    · exact ⟨serial, .inr rfl⟩
    · exact ⟨serial, .inl rfl⟩

/-- The node of a production lies where the parts do. -/
theorem laid_assemble {n : Text} {pos next : Nat} {nodes : List Node} {node : Node}
    {s s' : State i.size} (ha : assemble i n pos nodes s = (node, s'))
    (h : Laid i pos next nodes) : Laid i pos next [node] := by
  unfold assemble at ha
  split at ha
  · obtain ⟨rfl, -⟩ := Prod.mk.inj ha
    exact h
  · obtain ⟨rfl, -⟩ := Prod.mk.inj ha
    exact .composite h .nil

/-- **The parser lays out what it matches**, and so is all that it keeps. -/
theorem Run.laid {opened : Grammar.Opened} {pos : Nat} {task : Task} {s s' : State i.size}
    {r : Option (Match (List Node) i.size pos)} (h : Run i opened pos task s r s')
    (hs : s.Entries (LaidOut i)) :
    s'.Entries (LaidOut i) ∧ ∀ m, r = some m → Laid i pos m.next m.value := by
  induction h with
  | empty =>
    refine ⟨hs, ?_⟩
    rintro m ⟨⟩
    exact .nil
  | accept _ h hb =>
    refine ⟨hs, ?_⟩
    rintro m ⟨⟩
    exact .leaf (Array.getElem?_eq_getElem h) (isLeafOf_build hb _) .nil
  | reject | guard => exact ⟨hs.fail _ _, fun m hm => absurd hm (by simp)⟩
  | group _ ih | repetition _ ih | name _ _ ih => exact ih hs
  | @option _ _ _ _ r _ _ ih =>
    obtain ⟨hs', hl⟩ := ih hs
    refine ⟨hs', ?_⟩
    rintro m ⟨⟩
    cases r with
    | none => exact .nil
    | some m => exact hl m rfl
  | alt _ _ ih₁ ih₂ =>
    obtain ⟨hs₁, hl₁⟩ := ih₁ hs
    obtain ⟨hs₂, hl₂⟩ := ih₂ hs₁
    exact ⟨hs₂, fun m hm => (longer_eq_some hm).elim (hl₁ m) (hl₂ m)⟩
  | seqFirst _ ih => exact ⟨(ih hs).1, fun m hm => absurd hm (by simp)⟩
  | seq _ _ ih₁ ih₂ =>
    obtain ⟨hs₁, hl₁⟩ := ih₁ hs
    obtain ⟨hs₂, hl₂⟩ := ih₂ hs₁
    refine ⟨hs₂, fun m hm => ?_⟩
    obtain ⟨k, rfl, rfl⟩ := Option.map_eq_some_iff.mp hm
    exact (hl₁ _ rfl).append (hl₂ _ rfl)
  | hit hr =>
    refine ⟨hs, fun m hm => ?_⟩
    obtain ⟨k, rfl, rfl⟩ := Option.map_eq_some_iff.mp hm
    exact hs _ _ _ hr k rfl
  | fail _ _ _ _ ih =>
    refine ⟨(ih hs).1.keep fun _ => ?_, fun m hm => absurd hm (by simp)⟩
    exact fun m hm => absurd hm (by simp)
  | @node _ pos _ n _ m _ node _ _ _ _ ha _ ih =>
    obtain ⟨hs', hl⟩ := ih hs
    have hnode : Laid i pos m.next [node] := laid_assemble ha (hl m rfl)
    refine ⟨(hs'.assemble ha).keep fun _ => ?_, ?_⟩
    · rintro k ⟨⟩
      exact hnode
    · rintro k ⟨⟩
      exact hnode
  | manyLast _ _ ih =>
    refine ⟨(ih hs).1, ?_⟩
    rintro m ⟨⟩
    exact .nil
  | manyMore _ _ _ ih₁ ih₂ =>
    obtain ⟨hs₁, hl₁⟩ := ih₁ hs
    obtain ⟨hs₂, hl₂⟩ := ih₂ hs₁
    refine ⟨hs₂, ?_⟩
    rintro m ⟨⟩
    exact (hl₁ _ rfl).append (hl₂ _ rfl)

end Parse

/-- **A parsed tree is laid out over all kept tokens.** -/
theorem Parser.laid_of_parse {p : Parser} {tokens : List Token} {start : Text} {root : Node}
    (h : p.parse tokens start = .ok root) :
    Laid (p.input tokens) 0 (p.input tokens).size [root] := by
  obtain ⟨-, -, m, s, hrun, hm, hvalue⟩ := run_of_parse_eq_ok h
  have hl := (hrun.laid Parse.State.entries_start).2 m rfl
  rw [hvalue] at hl
  rwa [hm] at hl

end Arbor
