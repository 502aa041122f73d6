import Arbor.Node.Export
import Arbor.Proofs.Json
import Arbor.Proofs.Node.Walk

/-!
# The JSON of a tree can be told

A tree is exported with the names of its rules in place of the rules, and without its serial
numbers. All else is in the exported text: two trees with the same text are equal up to those
(`Node.view_eq_iff_isWrittenAs`), provided that the names, kinds and texts in them are well-formed
UTF-8.

Fields that would be empty are left out, so the fields of an object are told by their keys and
not by their places. A field that may be left out stands in front of one that is always there and
has another key, and this shows whether it is there (`Node.nameField_append_inj`).

A tree has an exported text however deep it is, unless there is a rule without a name or a missing
child in it. Only as a part of another value it is not handed on if its value is nested deeper than
values may be there (`Node.jsonPart_eq_ok_iff`): a level of a tree is two levels of its value, and a
span is two more (`Node.depth_toJson_le_iff`).
-/

namespace Arbor

/-- The name a rule is shown by: no rule is shown by the empty name, and a rule without a name
by none. -/
def Rule.shown (r : Option Rule) : Option Text := r.elim (some []) Rule.name?

/-- What is seen of a rule: the name it is shown by, if there is one. -/
def Rule.seen (r : Option Rule) : Rule := (Rule.shown r).elim .nameless .plain

/-- What is seen of a rule is shown as the rule is. -/
theorem Rule.shown_seen (r : Option Rule) : Rule.shown (some (Rule.seen r)) = Rule.shown r := by
  unfold seen
  cases Rule.shown r <;> rfl

/-- Rules that are shown by one name are seen as one. -/
theorem Rule.seen_eq_of_shown {r r' : Option Rule} (h : Rule.shown r = Rule.shown r') :
    Rule.seen r = Rule.seen r' := by
  unfold seen
  rw [h]

namespace Node

/-! ## What is seen of a tree -/

mutual

/-- **What is seen of a tree**: the names of its rules in place of the rules, no serial numbers,
and of spans what `place` keeps. -/
def view (place : Span → Span) : Node → Node
  | composite _ r cs s => composite 0 (some (Rule.seen r)) (viewAll place cs) (place s)
  | terminal _ r t s => terminal 0 (some (Rule.seen r)) t (place s)
  | token _ k t s => token 0 k t (place s)
  | missing _ => missing 0

/-- What is seen of some trees. -/
def viewAll (place : Span → Span) : List Node → List Node
  | [] => []
  | n :: ns => n.view place :: viewAll place ns

end

/-- The name of a rule, where one is needed, is the name it is shown by. -/
theorem elim_name_eq (r : Option Rule) :
    r.elim (.ok []) Rule.name = (Rule.shown r).elim (.error .namelessRule) .ok := by
  cases r with
  | none => rfl
  | some r => cases r <;> rfl

theorem elim_name_eq_ok_iff {r : Option Rule} {name : Text} :
    r.elim (.ok []) Rule.name = .ok name ↔ Rule.shown r = some name := by
  rw [elim_name_eq]
  cases Rule.shown r <;> simp

/-! ## Fields -/

/-- A name field that may be left out is told by the key of the field behind it. -/
theorem nameField_append_inj {key : String} {key' : Text} (hkey : utf8 key ≠ key')
    {name name' : Text} {v v' : Json} {fs fs' : List (Text × Json)}
    (h : nameField key name ++ (key', v) :: fs = nameField key name' ++ (key', v') :: fs') :
    name = name' ∧ v = v' ∧ fs = fs' := by
  unfold nameField at h
  split at h
  · next hname =>
    split at h
    · next hname' =>
      obtain ⟨hfield, hrest⟩ := List.cons.inj h
      exact ⟨hname.trans hname'.symm, (Prod.mk.inj hfield).2, hrest⟩
    · exact absurd (Prod.mk.inj (List.cons.inj h).1).1.symm hkey
  · split at h
    · exact absurd (Prod.mk.inj (List.cons.inj h).1).1 hkey
    · obtain ⟨hfield, hrest⟩ := List.cons.inj h
      obtain ⟨hspan, hrest⟩ := List.cons.inj hrest
      exact ⟨Json.str.inj (Prod.mk.inj hfield).2, (Prod.mk.inj hspan).2, hrest⟩

theorem jsonOfPosition_inj {p q : Position} (h : jsonOfPosition p = jsonOfPosition q) : p = q := by
  obtain ⟨offset, line, column⟩ := p
  obtain ⟨offset', line', column'⟩ := q
  simpa [jsonOfPosition] using h

theorem jsonOfSpan_inj {s s' : Span} (h : jsonOfSpan s = jsonOfSpan s') : s = s' := by
  obtain ⟨start, stop⟩ := s
  obtain ⟨start', stop'⟩ := s'
  have hfields : jsonOfPosition start = jsonOfPosition start'
      ∧ jsonOfPosition stop = jsonOfPosition stop' := by simpa [jsonOfSpan] using h
  rw [jsonOfPosition_inj hfields.1, jsonOfPosition_inj hfields.2]

/-- The field of the children, left out if there are none. -/
def childrenField (children : List Json) : List (Text × Json) :=
  if children.isEmpty then [] else [(utf8 "children", .arr children)]

theorem childrenField_inj {js js' : List Json} (h : childrenField js = childrenField js') :
    js = js' := by
  cases js <;> cases js' <;> simp_all [childrenField]

/-! ## The value of a node -/

/-- The value of a composite. -/
def compositeJson (name : Text) (s : Span) (children : List Json) : Json :=
  .obj ((utf8 "kind", .str (utf8 "composite"))
    :: (nameField "rule" name ++ (utf8 "span", jsonOfSpan s) :: childrenField children))

/-- The value of a leaf, by the word for what sort of leaf it is and the key of its name. -/
def leafJson (word key : String) (name t : Text) (s : Span) : Json :=
  .obj ((utf8 "kind", .str (utf8 word))
    :: (nameField key name ++ [(utf8 "text", .str t), (utf8 "span", jsonOfSpan s)]))

theorem toJson_composite {i : Nat} {r : Option Rule} {cs : List Node} {s : Span} {name : Text}
    {children : List Json} (hr : Rule.shown r = some name) (hcs : toJsonAll cs = .ok children) :
    (composite i r cs s).toJson = .ok (compositeJson name s children) := by
  rw [toJson, elim_name_eq_ok_iff.mpr hr, hcs]
  refine congrArg (fun fs => Except.ok (Json.obj fs)) ?_
  rw [List.append_assoc, List.append_assoc]
  rfl

/-- A composite has a value if its rule is shown by a name and its children have values. -/
theorem toJson_composite_eq_ok_iff {i : Nat} {r : Option Rule} {cs : List Node} {s : Span}
    {j : Json} :
    (composite i r cs s).toJson = .ok j ↔ ∃ name children, Rule.shown r = some name
      ∧ toJsonAll cs = .ok children ∧ j = compositeJson name s children := by
  constructor
  · intro h
    cases hr : Rule.shown r with
    | none =>
      rw [toJson, elim_name_eq, hr] at h
      cases h
    | some name =>
      cases hcs : toJsonAll cs with
      | error e =>
        rw [toJson, elim_name_eq_ok_iff.mpr hr, hcs] at h
        cases h
      | ok children =>
        rw [toJson_composite hr hcs] at h
        exact ⟨name, children, rfl, rfl, (Except.ok.inj h).symm⟩
  · rintro ⟨name, children, hr, hcs, rfl⟩
    exact toJson_composite hr hcs

theorem toJson_terminal {i : Nat} {r : Option Rule} {t : Text} {s : Span} {name : Text}
    (hr : Rule.shown r = some name) :
    (terminal i r t s).toJson = .ok (leafJson "terminal" "rule" name t s) := by
  rw [toJson, elim_name_eq_ok_iff.mpr hr]
  rfl

/-- A terminal has a value if its rule is shown by a name. -/
theorem toJson_terminal_eq_ok_iff {i : Nat} {r : Option Rule} {t : Text} {s : Span} {j : Json} :
    (terminal i r t s).toJson = .ok j ↔
      ∃ name, Rule.shown r = some name ∧ j = leafJson "terminal" "rule" name t s := by
  constructor
  · intro h
    cases hr : Rule.shown r with
    | none =>
      rw [toJson, elim_name_eq, hr] at h
      cases h
    | some name =>
      rw [toJson_terminal hr] at h
      exact ⟨name, rfl, (Except.ok.inj h).symm⟩
  · rintro ⟨name, hr, rfl⟩
    exact toJson_terminal hr

theorem toJson_token (i : Nat) (k t : Text) (s : Span) :
    (token i k t s).toJson = .ok (leafJson "token" "token" k t s) := rfl

theorem toJsonAll_cons_eq_ok_iff {n : Node} {ns : List Node} {js : List Json} :
    toJsonAll (n :: ns) = .ok js ↔
      ∃ j more, n.toJson = .ok j ∧ toJsonAll ns = .ok more ∧ js = j :: more := by
  rw [toJsonAll]
  constructor
  · intro h
    cases hj : n.toJson with
    | error e =>
      rw [hj] at h
      cases h
    | ok j =>
      cases hmore : toJsonAll ns with
      | error e =>
        rw [hj, hmore] at h
        cases h
      | ok more =>
        rw [hj, hmore] at h
        exact ⟨j, more, rfl, rfl, (Except.ok.inj h).symm⟩
  · rintro ⟨j, more, hj, hmore, rfl⟩
    rw [hj, hmore]
    rfl

/-! ## Equal values, equal views -/

theorem leafJson_inj {word word' key : String} {name name' t t' : Text} {s s' : Span}
    (hkey : utf8 key ≠ utf8 "text")
    (h : leafJson word key name t s = leafJson word' key name' t' s') :
    name = name' ∧ t = t' ∧ s = s' := by
  obtain ⟨hname, htext, hspan⟩ := nameField_append_inj hkey (List.cons.inj (Json.obj.inj h)).2
  refine ⟨hname, Json.str.inj htext, jsonOfSpan_inj ?_⟩
  exact (Prod.mk.inj (List.cons.inj hspan).1).2

theorem compositeJson_inj {name name' : Text} {s s' : Span} {js js' : List Json}
    (h : compositeJson name s js = compositeJson name' s' js') :
    name = name' ∧ s = s' ∧ js = js' := by
  obtain ⟨hname, hspan, hrest⟩ :=
    nameField_append_inj (by decide) (List.cons.inj (Json.obj.inj h)).2
  exact ⟨hname, jsonOfSpan_inj hspan, childrenField_inj hrest⟩

/-- The variants of nodes. -/
inductive Variant where
  /-- Composites. -/
  | composite
  /-- Terminals. -/
  | terminal
  /-- Tokens. -/
  | token
  /-- Missing children. -/
  | missing

/-- The variant of a node. -/
def variant : Node → Variant
  | composite .. => .composite
  | terminal .. => .terminal
  | token .. => .token
  | missing _ => .missing

/-- The variant that the first field of a value names. -/
def variant? : Json → Option Variant
  | .obj ((_, .str word) :: _) =>
    if word = utf8 "composite" then some .composite
    else if word = utf8 "terminal" then some .terminal
    else if word = utf8 "token" then some .token
    else none
  | _ => none

/-- The value of a node shows its variant. -/
theorem variant?_of_toJson {n : Node} {j : Json} (h : n.toJson = .ok j) :
    variant? j = some n.variant := by
  cases n with
  | composite i r cs s =>
    obtain ⟨name, children, -, -, rfl⟩ := toJson_composite_eq_ok_iff.mp h
    rfl
  | terminal i r t s =>
    obtain ⟨name, -, rfl⟩ := toJson_terminal_eq_ok_iff.mp h
    rfl
  | token i k t s =>
    obtain rfl := Except.ok.inj h
    rfl
  | missing i => cases h

mutual

/-- **Trees of one value look the same**, spans included. -/
theorem view_eq_of_toJson_eq (a b : Node) {j : Json} (ha : a.toJson = .ok j)
    (hb : b.toJson = .ok j) : a.view id = b.view id := by
  have hvariant : a.variant = b.variant :=
    Option.some.inj ((variant?_of_toJson ha).symm.trans (variant?_of_toJson hb))
  cases a with
  | composite i r cs s =>
    cases b with
    | composite i' r' cs' s' =>
      obtain ⟨name, children, hr, hcs, rfl⟩ := toJson_composite_eq_ok_iff.mp ha
      obtain ⟨name', children', hr', hcs', hj⟩ := toJson_composite_eq_ok_iff.mp hb
      obtain ⟨rfl, rfl, rfl⟩ := compositeJson_inj hj
      rw [view, view, Rule.seen_eq_of_shown (hr.trans hr'.symm),
        viewAll_eq_of_toJsonAll_eq cs cs' hcs hcs']
    | _ => cases hvariant
  | terminal i r t s =>
    cases b with
    | terminal i' r' t' s' =>
      obtain ⟨name, hr, rfl⟩ := toJson_terminal_eq_ok_iff.mp ha
      obtain ⟨name', hr', hj⟩ := toJson_terminal_eq_ok_iff.mp hb
      obtain ⟨rfl, rfl, rfl⟩ := leafJson_inj (by decide) hj
      rw [view, view, Rule.seen_eq_of_shown (hr.trans hr'.symm)]
    | _ => cases hvariant
  | token i k t s =>
    cases b with
    | token i' k' t' s' =>
      rw [toJson_token] at ha hb
      obtain ⟨rfl, rfl, rfl⟩ := leafJson_inj (by decide) (Except.ok.inj (ha.trans hb.symm))
      rfl
    | _ => cases hvariant
  | missing i => cases ha

theorem viewAll_eq_of_toJsonAll_eq (as bs : List Node) {js : List Json}
    (ha : toJsonAll as = .ok js) (hb : toJsonAll bs = .ok js) :
    viewAll id as = viewAll id bs := by
  cases as with
  | nil =>
    obtain rfl := Except.ok.inj ha
    cases bs with
    | nil => rfl
    | cons b bs =>
      obtain ⟨j, more, -, -, hjs⟩ := toJsonAll_cons_eq_ok_iff.mp hb
      cases hjs
  | cons a as =>
    obtain ⟨j, more, hj, hmore, rfl⟩ := toJsonAll_cons_eq_ok_iff.mp ha
    cases bs with
    | nil => cases hb
    | cons b bs =>
      obtain ⟨j', more', hj', hmore', hjs⟩ := toJsonAll_cons_eq_ok_iff.mp hb
      obtain ⟨rfl, rfl⟩ := List.cons.inj hjs
      rw [viewAll, viewAll, view_eq_of_toJson_eq a b hj hj',
        viewAll_eq_of_toJsonAll_eq as bs hmore hmore']

end

mutual

/-- What is seen of a tree has the value of the tree. -/
theorem toJson_view (n : Node) : (n.view id).toJson = n.toJson := by
  cases n with
  | composite i r cs s =>
    rw [view, toJson, toJson, elim_name_eq, elim_name_eq, Rule.shown_seen, toJsonAll_viewAll cs]
    rfl
  | terminal i r t s =>
    rw [view, toJson, toJson, elim_name_eq, elim_name_eq, Rule.shown_seen]
    rfl
  | token i k t s => rfl
  | missing i => rfl

theorem toJsonAll_viewAll (ns : List Node) : toJsonAll (viewAll id ns) = toJsonAll ns := by
  cases ns with
  | nil => rfl
  | cons n ns => rw [viewAll, toJsonAll, toJsonAll, toJson_view n, toJsonAll_viewAll ns]

end

/-! ## Which trees have a text -/

/-- The names, kinds and texts that a node itself has. -/
def strings : Node → List Text
  | composite _ r _ _ => (Rule.shown r).toList
  | terminal _ r t _ => t :: (Rule.shown r).toList
  | token _ k t _ => [k, t]
  | missing _ => []

/-- Whether all names, kinds and texts in a tree are well formed. -/
def IsUtf8 (n : Node) : Prop := ∀ m ∈ n.preorder, ∀ t ∈ m.strings, t.isUtf8 = true

theorem isUtf8_nameField {key : String} {name : Text} (h : name.isUtf8 = true) :
    ∀ f ∈ nameField key name, f.1.isUtf8 = true ∧ f.2.IsUtf8 := by
  intro f hf
  unfold nameField at hf
  split at hf
  · exact absurd hf List.not_mem_nil
  · obtain rfl := List.mem_singleton.mp hf
    exact ⟨Text.isUtf8_utf8 key, Json.isUtf8_str_iff.mpr h⟩

theorem isUtf8_jsonOfSpan (s : Span) : (jsonOfSpan s).IsUtf8 := by
  have hposition : ∀ p : Position, (jsonOfPosition p).IsUtf8 := by
    intro p
    refine Json.isUtf8_obj_iff.mpr ?_
    simp only [List.forall_mem_cons, Text.isUtf8_utf8, true_and]
    simp [Json.IsUtf8, Json.texts]
  refine Json.isUtf8_obj_iff.mpr ?_
  simp [Text.isUtf8_utf8, hposition]

theorem isUtf8_leafJson {word key : String} {name t : Text} (hname : name.isUtf8 = true)
    (ht : t.isUtf8 = true) (s : Span) : (leafJson word key name t s).IsUtf8 := by
  refine Json.isUtf8_obj_iff.mpr ?_
  simp only [List.forall_mem_cons, List.forall_mem_append, Text.isUtf8_utf8, true_and]
  refine ⟨Json.isUtf8_str_iff.mpr (Text.isUtf8_utf8 word), isUtf8_nameField hname,
    Json.isUtf8_str_iff.mpr ht, isUtf8_jsonOfSpan s, by simp⟩

theorem isUtf8_compositeJson {name : Text} (hname : name.isUtf8 = true) (s : Span)
    {children : List Json} (hchildren : ∀ j ∈ children, j.IsUtf8) :
    (compositeJson name s children).IsUtf8 := by
  refine Json.isUtf8_obj_iff.mpr ?_
  simp only [List.forall_mem_cons, List.forall_mem_append, Text.isUtf8_utf8, true_and]
  refine ⟨Json.isUtf8_str_iff.mpr (Text.isUtf8_utf8 _), isUtf8_nameField hname,
    isUtf8_jsonOfSpan s, ?_⟩
  intro f hf
  unfold childrenField at hf
  split at hf
  · exact absurd hf List.not_mem_nil
  · obtain rfl := List.mem_singleton.mp hf
    exact ⟨Text.isUtf8_utf8 _, Json.isUtf8_arr_iff.mpr hchildren⟩

mutual

/-- The strings in the value of a tree are those in the tree and some fixed ones. -/
theorem isUtf8_of_toJson (n : Node) {j : Json} (hn : n.IsUtf8) (h : n.toJson = .ok j) :
    j.IsUtf8 := by
  have hown := hn n n.mem_preorder_self
  cases n with
  | composite i r cs s =>
    obtain ⟨name, children, hr, hcs, rfl⟩ := toJson_composite_eq_ok_iff.mp h
    refine isUtf8_compositeJson (hown name ?_) s (isUtf8_of_toJsonAll cs ?_ hcs)
    · exact Option.mem_toList.mpr hr
    · exact fun m hm => hn m (List.mem_cons_of_mem _ hm)
  | terminal i r t s =>
    obtain ⟨name, hr, rfl⟩ := toJson_terminal_eq_ok_iff.mp h
    refine isUtf8_leafJson (hown name ?_) (hown t List.mem_cons_self) s
    exact List.mem_cons_of_mem _ (Option.mem_toList.mpr hr)
  | token i k t s =>
    obtain rfl := Except.ok.inj h
    exact isUtf8_leafJson (hown k List.mem_cons_self)
      (hown t (List.mem_cons_of_mem _ List.mem_cons_self)) s
  | missing i => cases h

theorem isUtf8_of_toJsonAll (ns : List Node) {js : List Json}
    (hns : ∀ m ∈ preorderAll ns, ∀ t ∈ m.strings, t.isUtf8 = true) (h : toJsonAll ns = .ok js) :
    ∀ j ∈ js, j.IsUtf8 := by
  cases ns with
  | nil =>
    obtain rfl := Except.ok.inj h
    exact fun j hj => absurd hj List.not_mem_nil
  | cons n ns =>
    obtain ⟨j, more, hj, hmore, rfl⟩ := toJsonAll_cons_eq_ok_iff.mp h
    rw [preorderAll_cons, List.forall_mem_append] at hns
    exact List.forall_mem_cons.mpr
      ⟨isUtf8_of_toJson n hns.1 hj, isUtf8_of_toJsonAll ns hns.2 hmore⟩

end

/-- Whether a node can be exported: it is there, and it has a name to be shown by. -/
def IsShown (n : Node) : Prop := n.isMissing = false ∧ ∃ k, n.kind = .ok k

theorem isShown_composite_iff {i : Nat} {r : Option Rule} {cs : List Node} {s : Span} :
    (composite i r cs s).IsShown ↔ ∃ name, Rule.shown r = some name := by
  simp only [IsShown, isMissing, kind, elim_name_eq_ok_iff, true_and]

mutual

/-- **A tree has a value** if each of its nodes is there and has a name. -/
theorem exists_toJson_iff (n : Node) :
    (∃ j, n.toJson = .ok j) ↔ ∀ m ∈ n.preorder, m.IsShown := by
  cases n with
  | composite i r cs s =>
    rw [preorder_composite, List.forall_mem_cons, isShown_composite_iff,
      ← exists_toJsonAll_iff cs]
    simp only [toJson_composite_eq_ok_iff]
    constructor
    · rintro ⟨j, name, children, hr, hcs, -⟩
      exact ⟨⟨name, hr⟩, children, hcs⟩
    · rintro ⟨⟨name, hr⟩, children, hcs⟩
      exact ⟨_, name, children, hr, hcs, rfl⟩
  | terminal i r t s =>
    rw [preorder_terminal, List.forall_mem_singleton]
    simp only [toJson_terminal_eq_ok_iff, IsShown, isMissing, kind, elim_name_eq_ok_iff, true_and]
    constructor
    · rintro ⟨j, name, hr, -⟩
      exact ⟨name, hr⟩
    · rintro ⟨name, hr⟩
      exact ⟨_, name, hr, rfl⟩
  | token i k t s =>
    rw [preorder_token, List.forall_mem_singleton]
    exact iff_of_true ⟨_, rfl⟩ ⟨rfl, k, rfl⟩
  | missing i =>
    rw [preorder_missing, List.forall_mem_singleton]
    exact iff_of_false (fun ⟨_, h⟩ => nomatch h) fun h => nomatch h.1

theorem exists_toJsonAll_iff (ns : List Node) :
    (∃ js, toJsonAll ns = .ok js) ↔ ∀ m ∈ preorderAll ns, m.IsShown := by
  cases ns with
  | nil => exact iff_of_true ⟨_, rfl⟩ fun m hm => absurd hm List.not_mem_nil
  | cons n ns =>
    rw [preorderAll_cons, List.forall_mem_append, ← exists_toJson_iff n, ← exists_toJsonAll_iff ns]
    simp only [toJsonAll_cons_eq_ok_iff]
    constructor
    · rintro ⟨js, j, more, hj, hmore, -⟩
      exact ⟨⟨j, hj⟩, more, hmore⟩
    · rintro ⟨⟨j, hj⟩, more, hmore⟩
      exact ⟨_, j, more, hj, hmore, rfl⟩

end

/-! ## How deep a value is nested -/

theorem depth_leafJson (word key : String) (name t : Text) (s : Span) :
    (leafJson word key name t s).depth = 3 := by
  unfold leafJson nameField
  split <;> rfl

/-- The value of a composite is nested as deep as its span, or two deeper than its children. -/
theorem depth_compositeJson (name : Text) (s : Span) (children : List Json) :
    (compositeJson name s children).depth = max 3 (Json.depthOfItems children + 2) := by
  have hfields : ∀ fs,
      Json.depthOfFields (nameField "rule" name ++ fs) = Json.depthOfFields fs := by
    intro fs
    unfold nameField
    split
    · rfl
    · exact Nat.zero_max _
  have hchildren : Json.depthOfFields (childrenField children) + 1
      = max 1 (Json.depthOfItems children + 2) ∨ children = [] := by
    cases children with
    | nil => exact .inr rfl
    | cons j js =>
      refine .inl ?_
      show max (Json.depthOfItems (j :: js) + 1) 0 + 1 = _
      omega
  show max 0 (Json.depthOfFields (nameField "rule" name ++ _)) + 1 = _
  rw [hfields]
  show max 0 (max 2 (Json.depthOfFields (childrenField children))) + 1 = _
  obtain h | rfl := hchildren
  · omega
  · rfl

mutual

/-- **A level of a tree is two levels of its value**, and a node is three with its span. -/
theorem depth_toJson_le_iff (n : Node) {j : Json} (h : n.toJson = .ok j) (depth limit : Nat) :
    j.depth + 2 * depth ≤ limit ↔ ∀ l ∈ n.levels depth, 2 * l.1 + 3 ≤ limit := by
  cases n with
  | composite i r cs s =>
    obtain ⟨name, children, -, hcs, rfl⟩ := toJson_composite_eq_ok_iff.mp h
    rw [levels, List.forall_mem_cons, ← depth_toJsonAll_le_iff cs hcs, depth_compositeJson]
    constructor
    · intro hle
      refine ⟨by omega, fun j hj => ?_⟩
      have := Json.depthOfItems_le_iff.mp (Nat.le_refl _) j hj
      omega
    · rintro ⟨hself, hbelow⟩
      have : Json.depthOfItems children ≤ limit - 2 * (depth + 1) :=
        Json.depthOfItems_le_iff.mpr fun j hj => by
          have := hbelow j hj
          omega
      omega
  | terminal i r t s =>
    obtain ⟨name, -, rfl⟩ := toJson_terminal_eq_ok_iff.mp h
    rw [levels, List.forall_mem_singleton, depth_leafJson, Nat.add_comm]
  | token i k t s =>
    obtain rfl := Except.ok.inj h
    rw [levels, List.forall_mem_singleton, Nat.add_comm]
    exact iff_of_eq (congrArg (2 * depth + · ≤ limit) (depth_leafJson "token" "token" k t s))
  | missing i => cases h

theorem depth_toJsonAll_le_iff (ns : List Node) {js : List Json} (h : toJsonAll ns = .ok js)
    (depth limit : Nat) :
    (∀ j ∈ js, j.depth + 2 * depth ≤ limit) ↔ ∀ l ∈ levelsAll depth ns, 2 * l.1 + 3 ≤ limit := by
  cases ns with
  | nil =>
    obtain rfl := Except.ok.inj h
    exact iff_of_true (fun j hj => absurd hj List.not_mem_nil)
      fun l hl => absurd hl List.not_mem_nil
  | cons n ns =>
    obtain ⟨j, more, hj, hmore, rfl⟩ := toJsonAll_cons_eq_ok_iff.mp h
    rw [levelsAll, List.forall_mem_append, List.forall_mem_cons, depth_toJson_le_iff n hj,
      depth_toJsonAll_le_iff ns hmore]

end

/-! ## The text of a tree -/

/-- **The text a tree is exported as**: the compact form of its value. -/
def IsWrittenAs (n : Node) (t : Text) : Prop := ∃ j, n.toJson = .ok j ∧ j.compact = t

/-- Trees that look the same are written the same. -/
theorem IsWrittenAs.of_view_eq {a b : Node} {t : Text} (h : a.IsWrittenAs t)
    (hview : a.view id = b.view id) : b.IsWrittenAs t := by
  obtain ⟨j, hj, ht⟩ := h
  refine ⟨j, ?_, ht⟩
  rw [← toJson_view b, ← hview, toJson_view, hj]

/-- Trees that are written the same look the same. -/
theorem IsWrittenAs.view_eq {a b : Node} {t : Text} (ha : a.IsUtf8) (hb : b.IsUtf8)
    (h : a.IsWrittenAs t) (h' : b.IsWrittenAs t) : a.view id = b.view id := by
  obtain ⟨j, hj, ht⟩ := h
  obtain ⟨j', hj', ht'⟩ := h'
  obtain rfl := Json.compact_inj (isUtf8_of_toJson a ha hj) (isUtf8_of_toJson b hb hj')
    (ht.trans ht'.symm)
  exact view_eq_of_toJson_eq a b hj hj'

/-- A tree is written if its nodes can be shown, however deep it is. -/
theorem exists_isWrittenAs_iff (a : Node) :
    (∃ t, a.IsWrittenAs t) ↔ ∀ n ∈ a.preorder, n.IsShown := by
  rw [← exists_toJson_iff]
  constructor
  · rintro ⟨t, j, hj, -⟩
    exact ⟨j, hj⟩
  · rintro ⟨j, hj⟩
    exact ⟨_, j, hj, rfl⟩

/-- **As part of another value a tree is handed on with the same text**, just if no node is too
deep in it. -/
theorem jsonPart_eq_ok_iff {a : Node} (ha : a.isMissing = false) {t : Text} :
    a.jsonPart = .ok (.ok t)
      ↔ a.IsWrittenAs t ∧ ∀ l ∈ a.levels 0, 2 * l.1 + 3 ≤ Json.maxDepth := by
  rw [jsonPart, if_neg (by simp [ha])]
  cases hj : a.toJson with
  | error f =>
    refine iff_of_false (fun h => nomatch h) ?_
    rintro ⟨⟨j, hj', -⟩, -⟩
    exact nomatch hj.symm.trans hj'
  | ok j =>
    have hpart : a.IsWrittenAs t ∧ (∀ l ∈ a.levels 0, 2 * l.1 + 3 ≤ Json.maxDepth)
        ↔ j.handOn Json.compact = .ok t := by
      rw [Json.handOn_eq_ok_iff, ← depth_toJson_le_iff a hj 0, and_comm]
      refine and_congr_right fun _ => ⟨?_, fun ht => ⟨j, hj, ht⟩⟩
      rintro ⟨j', hj', ht⟩
      rwa [Except.ok.inj (hj.symm.trans hj')]
    rw [hpart]
    show Except.ok ((j.handOn Json.compact).mapError _) = _ ↔ _
    rw [Except.ok.injEq]
    cases j.handOn Json.compact with
    | error e => exact iff_of_false (fun h => nomatch h) fun h => nomatch h
    | ok u => exact Iff.rfl

/-- **The exported text loses nothing.** A tree is written as the text of another just if the two
are equal up to the names of their rules: in variants, children and their order, kinds, texts and
spans. And every tree has a text whose nodes are there and have names, however deep it is. -/
theorem view_eq_iff_isWrittenAs :
    (∀ (a b : Node) (t : Text), a.IsUtf8 → b.IsUtf8 → a.IsWrittenAs t →
      (b.IsWrittenAs t ↔ a.view id = b.view id))
    ∧ ∀ a : Node, (∃ t, a.IsWrittenAs t) ↔ ∀ n ∈ a.preorder, n.IsShown := by
  refine ⟨?_, exists_isWrittenAs_iff⟩
  intro a b t ha hb h
  exact ⟨h.view_eq ha hb, h.of_view_eq⟩

end Node

namespace Sample

/-- A tree with markup in a text, an empty text and a node without a rule. -/
def marked (rule : Rule) (serial : Nat) : Node :=
  .composite serial (some rule)
    [.terminal (serial + 1) none (utf8 "<é\n") ⟨⟨0, 1, 1⟩, ⟨4, 2, 1⟩⟩,
      .token (serial + 2) (utf8 "Gap") [] ⟨⟨4, 2, 1⟩, ⟨4, 2, 1⟩⟩]
    ⟨⟨0, 1, 1⟩, ⟨4, 2, 1⟩⟩

theorem isUtf8_marked_of_name? {rule : Rule} {name : String} (h : rule.name? = some (utf8 name))
    (serial : Nat) : (marked rule serial).IsUtf8 := by
  have hstrings : (marked rule serial).preorder.flatMap Node.strings
      = [name, "<é\n", "", "Gap", ""].map utf8 := by
    show (Rule.shown (some rule)).toList ++ _ = _
    rw [show Rule.shown (some rule) = some (utf8 name) from h]
    rfl
  intro m hm t ht
  have hmem := List.mem_flatMap.mpr ⟨m, hm, ht⟩
  rw [hstrings] at hmem
  obtain ⟨s, -, rfl⟩ := List.mem_map.mp hmem
  exact Text.isUtf8_utf8 s

end Sample

/-- The rule of a production and a plain name are written the same, another name is not. -/
theorem Node.view_eq_iff_isWrittenAs_marked :
    ∃ t, (Sample.marked (.production (utf8 "list")) 0).IsWrittenAs t
      ∧ (Sample.marked (.plain (utf8 "list")) 7).IsWrittenAs t
      ∧ ¬ (Sample.marked (.plain (utf8 "item")) 0).IsWrittenAs t := by
  have hlist : (Sample.marked (.production (utf8 "list")) 0).IsUtf8 :=
    Sample.isUtf8_marked_of_name? rfl 0
  have hshown : ∀ n ∈ (Sample.marked (.production (utf8 "list")) 0).preorder, n.IsShown := by
    show ∀ n ∈ [_, _, _], _
    simp only [List.forall_mem_cons]
    exact ⟨⟨rfl, _, rfl⟩, ⟨rfl, _, rfl⟩, ⟨rfl, _, rfl⟩, fun n hn => absurd hn List.not_mem_nil⟩
  obtain ⟨t, ht⟩ := (view_eq_iff_isWrittenAs.2 _).mpr hshown
  refine ⟨t, ht, ?_, fun h => ?_⟩
  · exact (view_eq_iff_isWrittenAs.1 _ _ t hlist (Sample.isUtf8_marked_of_name? rfl 7) ht).mpr rfl
  · have hview := (view_eq_iff_isWrittenAs.1 _ _ t hlist
      (Sample.isUtf8_marked_of_name? rfl 0) ht).mp h
    exact absurd (congrArg Node.rule? hview) (by decide)

end Arbor
