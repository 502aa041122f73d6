import Arbor.Proofs.Parser.Evaluation
import Arbor.Proofs.Reach
import Arbor.Settings
import Mathlib.Data.List.TakeWhile

/-!
# The hierarchy of a grammar

A rule is an instance of its classes, directly or through classes of classes. The grammar
finds them by a search over edges that were added one by one, some by its categories, some
on request; edges from a rule to itself and edges that are there already are not added, and
a request that names something undefined adds nothing.

None of this shows in the answers. **Memberships** are what the categories of the grammar
and the requests say (`Grammar.Membership`), and a rule is an instance of just those that
it is led to by any number of memberships (`Grammar.isA_iff_reflTransGen`). A relation does
not know in which order it was written down, so neither do the answers.

Settings are another matter. They stop at the first membership that cannot be added, and leave
the grammar with those before it; so which ones these are depends on the order, unless all can be
added (`Settings.isA_ne_of_order`).

The argument is in two parts. Every way to add edges comes down to `Grammar.addEdges`, which
has a simple effect on direct classes (`Grammar.mem_parents_addEdges`); and what is above a
production, by any number of direct classes, is what a breadth-first search comes upon.
-/

namespace Arbor

open Relation (ReflTransGen)

/-! ## Direct classes -/

namespace Hierarchy

variable {h h₁ h₂ : Hierarchy} {n c x y : Text}

@[simp] theorem parents_flat (names : List Text) (n : Text) : (flat names).parents n = [] := by
  simp [parents, flat]

/-- An edge that is added makes one more direct class, unless it goes nowhere. -/
theorem mem_parents_add {child parent : Text} :
    y ∈ (h.add child parent).parents x ↔ y ∈ h.parents x ∨ x ≠ y ∧ (x, y) = (child, parent) := by
  by_cases hx : x = child
  · subst hx
    by_cases hadd : x = parent ∨ parent ∈ h.parents x
    · rw [add, if_pos hadd]
      -- nothing is added, and nothing needs to be
      refine ⟨.inl, fun hy => hy.elim id ?_⟩
      rintro ⟨hne, heq⟩
      obtain ⟨-, rfl⟩ := Prod.mk.inj heq
      exact hadd.resolve_left hne
    · have hne : x ≠ parent := fun heq => hadd (.inl heq)
      rw [parents_add_self h hne fun hin => hadd (.inr hin), List.mem_append, List.mem_singleton,
        Prod.mk.injEq]
      refine or_congr_right ⟨?_, fun hy => hy.2.2⟩
      rintro rfl
      exact ⟨hne, rfl, rfl⟩
  · rw [parents_add_of_ne h parent hx]
    refine ⟨.inl, fun hy => hy.resolve_right fun heq => hx ?_⟩
    exact congrArg Prod.fst heq.2

/-! ## All classes -/

/-- What is above a production is what direct classes lead to. -/
theorem mem_classes_iff (hclosed : ∀ x y, y ∈ h.parents x → y ∈ h.names) (hn : n ∈ h.names) :
    c ∈ h.classes n ↔ ReflTransGen (fun x y => y ∈ h.parents x) n c := by
  rw [classes, mem_breadthFirst_iff, Reachable.singleton_iff hclosed hn]

/-- All classes of a production are productions. -/
theorem mem_names_of_mem_classes (hc : c ∈ h.classes n) : c ∈ h.names :=
  (mem_breadthFirst_iff.mp hc).mem

/-- A production is an instance of a class with a name just if that name is above it. -/
theorem isA_production {cls : Rule} (hc : cls.name? = some c) :
    h.isA (.production n) cls = .ok (decide (c ∈ h.classes n)) := by
  unfold isA
  rw [hc]
  rfl

/-- **The hierarchy is a relation**: the order of direct classes has no part in it. -/
theorem isA_congr (hnames : h₁.names = h₂.names)
    (hparents : ∀ x y, y ∈ h₁.parents x ↔ y ∈ h₂.parents x) (r cls : Rule) :
    h₁.isA r cls = h₂.isA r cls := by
  have hreach : ∀ {k₁ k₂ : Hierarchy}, k₁.names = k₂.names →
      (∀ x y, y ∈ k₁.parents x ↔ y ∈ k₂.parents x) →
      ∀ n c, c ∈ k₁.classes n → c ∈ k₂.classes n := by
    intro k₁ k₂ hnames hparents n c hc
    rw [classes, mem_breadthFirst_iff] at hc ⊢
    rw [hnames] at hc
    induction hc with
    | root hr hv => exact .root hr hv
    | step hw hn _ ih => exact .step hw ((hparents _ _).mp hn) ih
  cases r with
  | nameless => rfl
  | plain n => rfl
  | production n =>
    cases hc : cls.name? with
    | none =>
      unfold isA
      rw [hc]
    | some c =>
      rw [isA_production hc, isA_production hc]
      congr 2
      exact propext ⟨hreach hnames hparents n c,
        hreach hnames.symm (fun x y => (hparents x y).symm) n c⟩

end Hierarchy

/-! ## Edges -/

namespace Grammar

variable {g : Grammar} {ps : List Production} {requests edges : List (Text × Text)}
  {m c n x y : Text}

theorem mem_names_hierarchy : n ∈ g.hierarchy.names ↔ g.has n = true := by
  rw [g.names_hierarchy, has_iff_mem_names, Std.HashSet.mem_ofList, List.contains_iff_mem]
  rfl

/-- Adds edges one after the other, without a look at what they connect. -/
def addEdges (g : Grammar) (edges : List (Text × Text)) : Grammar :=
  edges.foldl (fun g e => g.addEdge e.1 e.2) g

@[simp] theorem get?_addEdges (g : Grammar) (edges : List (Text × Text)) (n : Text) :
    (g.addEdges edges).get? n = g.get? n := by
  induction edges generalizing g with
  | nil => rfl
  | cons e edges ih => exact ih (g.addEdge e.1 e.2)

@[simp] theorem has_addEdges (g : Grammar) (edges : List (Text × Text)) (n : Text) :
    (g.addEdges edges).has n = g.has n := by
  rw [has, get?_addEdges, has]

@[simp] theorem members?_addEdges (g : Grammar) (edges : List (Text × Text)) (n : Text) :
    (g.addEdges edges).members? n = g.members? n := by
  rw [members?, get?_addEdges, members?]

theorem names_addEdges (g : Grammar) (edges : List (Text × Text)) :
    (g.addEdges edges).hierarchy.names = g.hierarchy.names := by
  induction edges generalizing g with
  | nil => rfl
  | cons e edges ih => exact (ih (g.addEdge e.1 e.2)).trans (Hierarchy.names_add ..)

/-- **Direct classes are edges**, except that no edge from a rule to itself counts. -/
theorem mem_parents_addEdges :
    y ∈ (g.addEdges edges).parents x ↔ y ∈ g.parents x ∨ x ≠ y ∧ (x, y) ∈ edges := by
  induction edges generalizing g with
  | nil => simp [addEdges]
  | cons e edges ih =>
    show y ∈ ((g.addEdge e.1 e.2).addEdges edges).parents x ↔ _
    rw [ih]
    show y ∈ (g.hierarchy.add e.1 e.2).parents x ∨ _ ↔ _
    rw [Hierarchy.mem_parents_add, or_assoc, ← and_or_left, List.mem_cons]
    rfl

/-! ## Memberships -/

/-- **What makes a rule a member of another**: the other one is a category and it is one of
the defined members, or a request with two defined names said so. -/
inductive Membership (g : Grammar) (requests : List (Text × Text)) (m c : Text) : Prop
  | declared {ms} (hc : g.members? c = some ms) (hm : m ∈ ms) (hd : g.has m = true)
  | requested (h : (m, c) ∈ requests) (hm : g.has m = true) (hc : g.has c = true)

theorem Membership.has_class (h : g.Membership requests m c) : g.has c = true := by
  cases h with
  | requested _ _ hc => exact hc
  | declared hc =>
    obtain ⟨p, hp, -⟩ := Option.bind_eq_some_iff.mp hc
    exact has_of_get? hp

/-- The edges that the categories of a grammar declare. -/
def declarations (g : Grammar) : List (Text × Text) := g.productions.flatMap g.declared

theorem ofProductions_eq (ps : List Production) :
    ofProductions ps = (bare ps).addEdges (bare ps).declarations := rfl

theorem mem_declared {p : Production} :
    (m, c) ∈ g.declared p
      ↔ p.name = c ∧ ∃ ms, membersOf? p = some ms ∧ m ∈ ms ∧ g.has m = true := by
  unfold declared
  cases hms : membersOf? p with
  | none => simp
  | some ms =>
    show (m, c) ∈ (ms.filter g.has).map (·, p.name) ↔ _
    rw [List.mem_map]
    constructor
    · rintro ⟨k, hk, heq⟩
      obtain ⟨rfl, hc⟩ := Prod.mk.inj heq
      exact ⟨hc, ms, rfl, List.mem_filter.mp hk⟩
    · rintro ⟨rfl, ms', heq, hm⟩
      obtain rfl := Option.some.inj heq
      exact ⟨m, List.mem_filter.mpr hm, rfl⟩

/-- A declaration is a category with one of its defined members. -/
theorem mem_declarations :
    (m, c) ∈ g.declarations ↔ ∃ ms, g.members? c = some ms ∧ m ∈ ms ∧ g.has m = true := by
  rw [declarations, List.mem_flatMap]
  constructor
  · rintro ⟨p, hp, he⟩
    obtain ⟨rfl, ms, hms, hm⟩ := mem_declared.mp he
    refine ⟨ms, ?_, hm⟩
    rw [members?, get?_of_mem hp, Option.bind_some, hms]
  · rintro ⟨ms, hc, hm⟩
    obtain ⟨p, hp, hms⟩ := Option.bind_eq_some_iff.mp hc
    obtain ⟨hmem, hname⟩ := get?_eq_some_iff.mp hp
    exact ⟨p, hmem, mem_declared.mpr ⟨hname, ms, hms, hm⟩⟩

/-! ## Requests -/

/-- The grammar after some requests for memberships, one after the other. A request that
fails leaves the grammar as it is. -/
def classifyAll (g : Grammar) (requests : List (Text × Text)) : Grammar :=
  requests.foldl (fun g r => (g.classify r.1 r.2).toOption.getD g) g

/-- **A grammar that is made of productions and requests.** -/
def build (ps : List Production) (requests : List (Text × Text)) : Grammar :=
  (ofProductions ps).classifyAll requests

/-- Whether both sides of a request are defined. -/
def admits (g : Grammar) (r : Text × Text) : Bool := g.has r.1 && g.has r.2

theorem admits_addEdges (g : Grammar) (edges : List (Text × Text)) (r : Text × Text) :
    (g.addEdges edges).admits r = g.admits r := by
  rw [admits, has_addEdges, has_addEdges, admits]

theorem classify_of_admits {r : Text × Text} (hr : g.admits r = true) :
    g.classify r.1 r.2 = .ok (g.addEdge r.1 r.2) := by
  obtain ⟨h₁, h₂⟩ := Bool.and_eq_true_iff.mp hr
  simp [classify, h₁, h₂]

theorem exists_classify_eq_error {r : Text × Text} (hr : g.admits r = false) :
    ∃ e, g.classify r.1 r.2 = .error e := by
  unfold classify
  by_cases h₁ : g.has r.1 = true
  · have h₂ : g.has r.2 = false := by simpa [admits, h₁] using hr
    exact ⟨.noClass r.1 r.2, by simp [h₁, h₂]⟩
  · exact ⟨.noMember r.1, by simp [h₁]⟩

/-- Requests add the edges that the grammar admits. -/
theorem classifyAll_eq_addEdges (g : Grammar) (requests : List (Text × Text)) :
    g.classifyAll requests = g.addEdges (requests.filter g.admits) := by
  induction requests generalizing g with
  | nil => rfl
  | cons r requests ih =>
    show ((g.classify r.1 r.2).toOption.getD g).classifyAll requests = _
    cases hr : g.admits r with
    | true =>
      rw [classify_of_admits hr, List.filter_cons_of_pos hr]
      exact ih (g.addEdge r.1 r.2)
    | false =>
      obtain ⟨e, he⟩ := exists_classify_eq_error hr
      rw [he, List.filter_cons_of_neg (by simp [hr])]
      exact ih g

theorem build_append (ps : List Production) (requests more : List (Text × Text)) :
    build ps (requests ++ more) = (build ps requests).classifyAll more :=
  List.foldl_append

theorem has_build (ps : List Production) (requests : List (Text × Text)) (n : Text) :
    (build ps requests).has n = (ofProductions ps).has n := by
  rw [build, classifyAll_eq_addEdges, has_addEdges]

theorem members?_build (ps : List Production) (requests : List (Text × Text)) (n : Text) :
    (build ps requests).members? n = (ofProductions ps).members? n := by
  rw [build, classifyAll_eq_addEdges, members?_addEdges]

theorem build_eq (ps : List Production) (requests : List (Text × Text)) :
    build ps requests = ((bare ps).addEdges (bare ps).declarations).addEdges
      (requests.filter (bare ps).admits) := by
  rw [build, classifyAll_eq_addEdges, ofProductions_eq]
  congr 2
  exact funext fun r => admits_addEdges ..

/-- **Direct classes are memberships.** -/
theorem mem_parents_build :
    y ∈ (build ps requests).parents x ↔ x ≠ y ∧ (build ps requests).Membership requests x y := by
  rw [build_eq, mem_parents_addEdges, mem_parents_addEdges, mem_declarations, List.mem_filter]
  have hbare : y ∉ (bare ps).parents x := by
    show y ∉ (Hierarchy.flat _).parents x
    simp
  constructor
  · rintro ((h | ⟨hne, ms, hc, hm, hd⟩) | ⟨hne, hr, ha⟩)
    · exact absurd h hbare
    · exact ⟨hne, .declared (by simpa using hc) hm (by simpa using hd)⟩
    · obtain ⟨h₁, h₂⟩ := Bool.and_eq_true_iff.mp ha
      exact ⟨hne, .requested hr (by simpa using h₁) (by simpa using h₂)⟩
  · rintro ⟨hne, ⟨hc, hm, hd⟩ | ⟨hr, hm, hc⟩⟩
    · exact .inl (.inr ⟨hne, _, by simpa using hc, hm, by simpa using hd⟩)
    · exact .inr ⟨hne, hr, Bool.and_eq_true_iff.mpr ⟨by simpa using hm, by simpa using hc⟩⟩

/-- A step that goes nowhere makes no difference to where steps lead. -/
theorem reflTransGen_ne_and {r : Text → Text → Prop} :
    ReflTransGen (fun x y => x ≠ y ∧ r x y) = ReflTransGen r := by
  funext a b
  refine propext ⟨ReflTransGen.mono (fun _ _ hr => hr.2) a b, fun h => ?_⟩
  induction h with
  | refl => exact .refl
  | @tail x y _ hr ih =>
    by_cases hxy : x = y
    · exact hxy ▸ ih
    · exact ih.tail ⟨hxy, hr⟩

/-- **All classes are what memberships lead to.** -/
theorem mem_classes_build (ha : (build ps requests).has n = true) :
    c ∈ (build ps requests).hierarchy.classes n
      ↔ ReflTransGen ((build ps requests).Membership requests) n c := by
  have hparents : ∀ x y, y ∈ (build ps requests).hierarchy.parents x
      ↔ x ≠ y ∧ (build ps requests).Membership requests x y := fun x y => mem_parents_build
  have hstep : (fun x y => y ∈ (build ps requests).hierarchy.parents x)
      = fun x y => x ≠ y ∧ (build ps requests).Membership requests x y := by
    funext x y
    exact propext (hparents x y)
  have hclosed : ∀ x y, y ∈ (build ps requests).hierarchy.parents x →
      y ∈ (build ps requests).hierarchy.names := by
    intro x y hy
    exact mem_names_hierarchy.mpr ((hparents x y).mp hy).2.has_class
  rw [Hierarchy.mem_classes_iff hclosed (mem_names_hierarchy.mpr ha), hstep, reflTransGen_ne_and]

end Grammar

/-! ## Settings -/

namespace Settings

variable {s : Settings} {g : Grammar} {edges rest : List (Text × Text)}

/-- The memberships that are set, each a member with its class. -/
def memberships (s : Settings) : List (Text × Text) :=
  s.classes.flatMap fun c => c.2.map fun m => (m, c.1)

theorem mem_sorted {e : Text × Text} : e ∈ s.sorted ↔ e ∈ s.memberships :=
  ((List.mergeSort_perm _ _).flatMap_right _).mem_iff

/-- Memberships that are admitted add their edges, and then it is the turn of the next ones. -/
theorem addUntilError_append (h : ∀ e ∈ edges, g.admits e = true) :
    addUntilError g (edges ++ rest) = addUntilError (g.addEdges edges) rest := by
  induction edges generalizing g with
  | nil => rfl
  | cons e edges ih =>
    rw [List.forall_mem_cons] at h
    have hadmits : ∀ e' ∈ edges, (g.addEdge e.1 e.2).admits e' = true := h.2
    rw [List.cons_append, addUntilError, Grammar.classify_of_admits h.1]
    exact ih hadmits

/-- One that is not admitted is the last that is tried. -/
theorem exists_addUntilError_cons {e : Text × Text} (h : g.admits e = false)
    (rest : List (Text × Text)) : ∃ error, addUntilError g (e :: rest) = (g, some error) := by
  obtain ⟨error, herror⟩ := Grammar.exists_classify_eq_error h
  exact ⟨error, by rw [addUntilError, herror]⟩

/-- **The memberships before the first that is not admitted are added**, and that one is the reason
if there is a failure. -/
theorem classify_spec (s : Settings) (g : Grammar) :
    (s.classify g).1 = g.addEdges (s.sorted.takeWhile g.admits)
      ∧ ((s.classify g).2 = none ↔ ∀ e ∈ s.sorted, g.admits e = true) := by
  have hadded : ∀ e ∈ s.sorted.takeWhile g.admits, g.admits e = true :=
    fun e he => List.mem_takeWhile_imp he
  have hclassify : s.classify g
      = addUntilError (g.addEdges (s.sorted.takeWhile g.admits)) (s.sorted.dropWhile g.admits) := by
    rw [classify, ← addUntilError_append hadded, List.takeWhile_append_dropWhile]
  cases hrest : s.sorted.dropWhile g.admits with
  | nil =>
    rw [hclassify, hrest]
    exact ⟨rfl, iff_of_true rfl (List.dropWhile_eq_nil_iff.mp hrest)⟩
  | cons e rest =>
    have he : g.admits e = false := by
      have hhead := List.head?_dropWhile_not g.admits s.sorted
      simpa [hrest] using hhead
    obtain ⟨error, herror⟩ := exists_addUntilError_cons
      ((Grammar.admits_addEdges g (s.sorted.takeWhile g.admits) e).trans he) rest
    rw [hclassify, hrest, herror]
    refine ⟨rfl, iff_of_false (by simp) fun hall => ?_⟩
    have hmem : e ∈ s.sorted := by
      refine (List.dropWhile_suffix g.admits).subset ?_
      rw [hrest]
      exact List.mem_cons_self
    exact absurd (hall e hmem) (by simp [he])

theorem classify_fst_of_forall (h : ∀ e ∈ s.memberships, g.admits e = true) :
    (s.classify g).1 = g.addEdges s.sorted := by
  rw [(classify_spec s g).1, List.takeWhile_eq_self_iff.mpr fun e he => h e (mem_sorted.mp he)]

/-- After the requests that were made, the memberships are further requests. -/
theorem classify_build (s : Settings) (ps : List Production) (requests : List (Text × Text)) :
    (s.classify (.build ps requests)).1
      = .build ps (requests ++ s.sorted.takeWhile (Grammar.build ps requests).admits) := by
  have hadded : ∀ e ∈ s.sorted.takeWhile (Grammar.build ps requests).admits,
      (Grammar.build ps requests).admits e = true :=
    fun e he => List.mem_takeWhile_imp he
  rw [(classify_spec s _).1, Grammar.build_append, Grammar.classifyAll_eq_addEdges,
    List.filter_eq_self.mpr hadded]

end Settings

/-! ## Instances -/

namespace Grammar

/-- **A rule is an instance of what memberships lead to.** In a grammar that is made of
productions and of requests, successful or not, a production is an instance of another just
if any number of memberships leads from the one to the other, and an instance of a plain
name just if that is the name of such a production.

Settings request their memberships in the order of the classes, up to the first that is not
between productions. So they can add all of them just if all are between productions, and then the
answers depend on the set of these memberships alone. -/
theorem isA_iff_reflTransGen (ps : List Production) (requests : List (Text × Text)) :
    (∀ a b, (build ps requests).has a = true → (build ps requests).has b = true →
      ∃ answer, (build ps requests).hierarchy.isA (.production a) (.production b) = .ok answer
        ∧ (answer = true ↔ ReflTransGen ((build ps requests).Membership requests) a b))
      ∧ (∀ a name, (build ps requests).has a = true →
        ((build ps requests).hierarchy.isA (.production a) (.plain name) = .ok true
          ↔ (build ps requests).has name = true
            ∧ (build ps requests).hierarchy.isA (.production a) (.production name) = .ok true))
      ∧ (∀ s : Settings, (s.classify (build ps requests)).1
        = build ps (requests ++ s.sorted.takeWhile (build ps requests).admits))
      ∧ (∀ s : Settings, (s.classify (build ps requests)).2 = none
        ↔ ∀ e ∈ s.memberships,
          (build ps requests).has e.1 = true ∧ (build ps requests).has e.2 = true)
      ∧ ∀ s₁ s₂ : Settings, (∀ e, e ∈ s₁.memberships ↔ e ∈ s₂.memberships) →
        (s₁.classify (build ps requests)).2 = none →
        (s₂.classify (build ps requests)).2 = none
          ∧ ∀ r cls, (s₁.classify (build ps requests)).1.hierarchy.isA r cls
            = (s₂.classify (build ps requests)).1.hierarchy.isA r cls := by
  have hnone : ∀ s : Settings, (s.classify (build ps requests)).2 = none
      ↔ ∀ e ∈ s.memberships, (build ps requests).admits e = true := by
    intro s
    rw [(Settings.classify_spec s _).2]
    simp only [Settings.mem_sorted]
  refine ⟨?_, ?_, fun s => Settings.classify_build s ps requests, ?_, ?_⟩
  · intro a b ha hb
    refine ⟨_, Hierarchy.isA_production rfl, ?_⟩
    rw [decide_eq_true_eq, mem_classes_build ha]
  · intro a name ha
    rw [Hierarchy.isA_production rfl, Hierarchy.isA_production rfl]
    refine ⟨fun h => ⟨?_, h⟩, fun h => h.2⟩
    have hmem := of_decide_eq_true (Except.ok.inj h)
    exact mem_names_hierarchy.mp (Hierarchy.mem_names_of_mem_classes hmem)
  · intro s
    rw [hnone]
    simp only [admits, Bool.and_eq_true]
  · intro s₁ s₂ hsame h₁
    have hall₁ := (hnone s₁).mp h₁
    have hall₂ : ∀ e ∈ s₂.memberships, (build ps requests).admits e = true :=
      fun e he => hall₁ e ((hsame e).mpr he)
    refine ⟨(hnone s₂).mpr hall₂, ?_⟩
    rw [Settings.classify_fst_of_forall hall₁, Settings.classify_fst_of_forall hall₂]
    refine Hierarchy.isA_congr ?_ fun x y => ?_
    · rw [names_addEdges, names_addEdges]
    · show y ∈ parents _ x ↔ y ∈ parents _ x
      rw [mem_parents_addEdges, mem_parents_addEdges, Settings.mem_sorted, Settings.mem_sorted,
        hsame]

end Grammar

/-! ## A sample

Two rules that are classes of each other, and a request for a rule that does not exist. -/

namespace Sample

def requests : List (Text × Text) :=
  [(utf8 "list", utf8 "item"), (utf8 "item", utf8 "list"), (utf8 "nothing", utf8 "item")]

/-- The grammar of lists, where lists are items and items are lists. -/
def nested : Grammar := .build [list, item, word] requests

theorem has_requested {n : Text} {p : Production} (h : grammar.get? n = some p)
    (requests : List (Text × Text)) :
    (Grammar.build [list, item, word] requests).has n = true := by
  rw [Grammar.has_build]
  exact Grammar.has_of_get? h

/-- Words are items by declaration, and items are lists by request. -/
theorem word_leads_to_list :
    Relation.ReflTransGen (nested.Membership requests) (utf8 "Word") (utf8 "list") := by
  have hitem : nested.members? (utf8 "item") = some [utf8 "Word"] := by
    rw [nested, Grammar.members?_build]
    show (grammar.get? (utf8 "item")).bind _ = _
    rw [get?_grammar]
    rfl
  refine .head (.declared hitem List.mem_cons_self (has_requested (get?_grammar _) _)) (.single ?_)
  exact .requested (by decide) (has_requested (get?_grammar _) _) (has_requested (get?_grammar _) _)

/-- Nothing is a word but itself. -/
theorem eq_of_leads_to_word {n : Text}
    (h : Relation.ReflTransGen (nested.Membership requests) n (utf8 "Word")) : n = utf8 "Word" := by
  have hnone : ∀ m, ¬ nested.Membership requests m (utf8 "Word") := by
    rintro m (⟨hc, -, -⟩ | ⟨hr, -, -⟩)
    · rw [nested, Grammar.members?_build] at hc
      have hword : grammar.members? (utf8 "Word") = none := by
        rw [Grammar.members?, get?_grammar]
        rfl
      cases hword.symm.trans hc
    · have hclass : utf8 "Word" ∈ requests.map Prod.snd := List.mem_map_of_mem hr
      exact absurd hclass (by decide)
  refine (Relation.ReflTransGen.cases_tail h).elim Eq.symm ?_
  rintro ⟨m, -, hm⟩
  exact absurd hm (hnone m)

/-- Settings that make some rules lists. -/
def lists (members : List Text) : Settings :=
  { Settings.default with classes := [(utf8 "list", members)] }

theorem sorted_lists (members : List Text) :
    (lists members).sorted = members.map (·, utf8 "list") := by
  rw [Settings.sorted, lists, List.mergeSort_singleton, List.flatMap_singleton]

theorem classify_lists (members : List Text) :
    ((lists members).classify grammar).1
      = .build [list, item, word] ((members.map (·, utf8 "list")).takeWhile grammar.admits) := by
  rw [← sorted_lists]
  exact Settings.classify_build (lists members) [list, item, word] []

/-- Without a request there are no lists but lists. -/
theorem eq_of_leads_to_list {n : Text} (h : Relation.ReflTransGen
    ((Grammar.build [list, item, word] []).Membership []) n (utf8 "list")) : n = utf8 "list" := by
  have hnone : ∀ m, ¬ (Grammar.build [list, item, word] []).Membership [] m (utf8 "list") := by
    rintro m (⟨hc, -, -⟩ | ⟨hr, -, -⟩)
    · have hlist : grammar.members? (utf8 "list") = none := by
        rw [Grammar.members?, get?_grammar]
        rfl
      cases hlist.symm.trans hc
    · exact absurd hr List.not_mem_nil
  refine (Relation.ReflTransGen.cases_tail h).elim Eq.symm ?_
  rintro ⟨m, -, hm⟩
  exact absurd hm (hnone m)

end Sample

/-- In the sample, a word is a list through items, and a list is no word. Settings that make items
and words lists can do so in either order. -/
theorem Grammar.isA_iff_reflTransGen_nested :
    Sample.nested.hierarchy.isA (.production (utf8 "Word")) (.production (utf8 "list")) = .ok true
      ∧ Sample.nested.hierarchy.isA (.production (utf8 "Word")) (.plain (utf8 "list")) = .ok true
      ∧ Sample.nested.hierarchy.isA (.production (utf8 "list")) (.production (utf8 "Word"))
        = .ok false
      ∧ ∀ r cls,
        ((Sample.lists [utf8 "item", utf8 "Word"]).classify Sample.nested).1.hierarchy.isA r cls
          = ((Sample.lists [utf8 "Word", utf8 "item"]).classify Sample.nested).1.hierarchy.isA
            r cls := by
  obtain ⟨hisA, hplain, -, hall, hset⟩ := isA_iff_reflTransGen
    [Sample.list, Sample.item, Sample.word] Sample.requests
  have hitem : Sample.nested.has (utf8 "item") = true :=
    Sample.has_requested (Sample.get?_grammar _) _
  have hword : Sample.nested.has (utf8 "Word") = true :=
    Sample.has_requested (Sample.get?_grammar _) _
  have hlist : Sample.nested.has (utf8 "list") = true :=
    Sample.has_requested (Sample.get?_grammar _) _
  obtain ⟨up, hup, hup'⟩ := hisA _ _ hword hlist
  obtain ⟨down, hdown, hdown'⟩ := hisA _ _ hlist hword
  obtain rfl : up = true := hup'.mpr Sample.word_leads_to_list
  obtain rfl : down = false :=
    Bool.eq_false_iff.mpr fun h => absurd (Sample.eq_of_leads_to_word (hdown'.mp h)) (by decide)
  have hsettings : ∀ e ∈ (Sample.lists [utf8 "item", utf8 "Word"]).memberships,
      Sample.nested.has e.1 = true ∧ Sample.nested.has e.2 = true := by
    show ∀ e ∈ [(utf8 "item", utf8 "list"), (utf8 "Word", utf8 "list")], _
    simp only [List.forall_mem_cons]
    exact ⟨⟨hitem, hlist⟩, ⟨hword, hlist⟩, fun e he => absurd he List.not_mem_nil⟩
  have hswap := (hset (Sample.lists [utf8 "item", utf8 "Word"])
    (Sample.lists [utf8 "Word", utf8 "item"]) (fun e => (List.Perm.swap _ _ _).mem_iff)
    ((hall _).mpr hsettings)).2
  exact ⟨hup, (hplain _ _ hword).mpr ⟨hlist, hup⟩, hdown, hswap⟩

/-- **The order of memberships shows if one of them fails.** With an item and something undefined
as lists, an item is one just if it comes first. -/
theorem Settings.isA_ne_of_order :
    (∀ e, e ∈ (Sample.lists [utf8 "item", utf8 "nothing"]).memberships
        ↔ e ∈ (Sample.lists [utf8 "nothing", utf8 "item"]).memberships)
      ∧ ((Sample.lists [utf8 "item", utf8 "nothing"]).classify Sample.grammar).1.hierarchy.isA
        (.production (utf8 "item")) (.production (utf8 "list")) = .ok true
      ∧ ((Sample.lists [utf8 "nothing", utf8 "item"]).classify Sample.grammar).1.hierarchy.isA
        (.production (utf8 "item")) (.production (utf8 "list")) = .ok false := by
  have hitem := Sample.has_requested (Sample.get?_grammar (utf8 "item"))
  have hlist := Sample.has_requested (Sample.get?_grammar (utf8 "list"))
  have hadmits : Sample.grammar.admits (utf8 "item", utf8 "list") = true :=
    Bool.and_eq_true_iff.mpr ⟨hitem [], hlist []⟩
  have hrefuses : ¬ Sample.grammar.admits (utf8 "nothing", utf8 "list") = true := by
    rw [Grammar.admits, Grammar.has, Sample.get?_grammar]
    exact Bool.false_ne_true
  refine ⟨fun e => (List.Perm.swap _ _ _).mem_iff, ?_, ?_⟩
  · -- the membership of the item is added before the failure
    rw [Sample.classify_lists, List.map_cons, List.takeWhile_cons_of_pos hadmits, List.map_cons,
      List.takeWhile_cons_of_neg hrefuses, Hierarchy.isA_production rfl]
    refine congrArg Except.ok (decide_eq_true ((Grammar.mem_classes_build (hitem _)).mpr ?_))
    exact .single (.requested List.mem_cons_self (hitem _) (hlist _))
  · rw [Sample.classify_lists, List.map_cons, List.takeWhile_cons_of_neg hrefuses,
      Hierarchy.isA_production rfl]
    refine congrArg Except.ok (decide_eq_false fun hmem => ?_)
    have hleads := (Grammar.mem_classes_build (hitem [])).mp hmem
    exact absurd (Sample.eq_of_leads_to_list hleads) (by decide)

end Arbor
