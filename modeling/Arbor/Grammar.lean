import Std.Data.HashMap
import Arbor.Grammar.Reader
import Arbor.Rule

/-!
# Grammars

A **grammar** is a list of productions in the order of their names, no name
twice, together with the hierarchy of its rules.

A production whose name starts with an upper-case ASCII letter is a *token*
production; the others are syntactic. A syntactic production whose body is
nothing but a choice of names is a **category**: what it chooses between are
its members, and they are instances of it. More memberships can be added
afterwards with `classify`.
-/

namespace Arbor

/-- Puts a production at its place in a list in the order of names; the first
of two with one name stays. -/
def Production.insert (p : Production) : List Production → List Production
  | [] => [p]
  | q :: qs =>
    if p.name < q.name then p :: q :: qs
    else if q.name < p.name then q :: p.insert qs
    else q :: qs

namespace Production

/-- Whether productions stand in the order of their names, no name twice. -/
def Ordered (ps : List Production) : Prop := ps.Pairwise fun p q => p.name < q.name

/-- An insertion brings in nothing but the production inserted. -/
theorem mem_of_mem_insert {p q : Production} {ps : List Production} (h : q ∈ p.insert ps) :
    q = p ∨ q ∈ ps := by
  induction ps with
  | nil => simpa [insert] using h
  | cons r rs ih =>
    simp only [insert] at h
    split at h
    · simpa using h
    · split at h
      · rcases List.mem_cons.mp h with rfl | h
        · exact .inr (List.mem_cons_self ..)
        · exact (ih h).imp id (List.mem_cons_of_mem _)
      · exact .inr h

/-- An insertion keeps the order. -/
theorem Ordered.insert {ps : List Production} (h : Ordered ps) (p : Production) :
    Ordered (p.insert ps) := by
  induction ps with
  | nil => simp [Production.insert, Ordered]
  | cons q qs ih =>
    obtain ⟨hq, hqs⟩ := List.pairwise_cons.mp h
    simp only [Production.insert]
    split
    · next hpq =>
      refine List.pairwise_cons.mpr ⟨fun r hr => ?_, h⟩
      rcases List.mem_cons.mp hr with rfl | hr
      · exact hpq
      · exact List.lt_trans hpq (hq r hr)
    · split
      · next hqp =>
        refine List.pairwise_cons.mpr ⟨fun r hr => ?_, ih hqs⟩
        rcases mem_of_mem_insert hr with rfl | hr
        · exact hqp
        · exact hq r hr
      · exact h

/-- What stands under a name after an insertion is what stood there, or else the
production inserted. -/
theorem Ordered.find?_insert {ps : List Production} (h : Ordered ps) (p : Production) (n : Text) :
    (p.insert ps).find? (·.name = n) = (ps.find? (·.name = n)).or ([p].find? (·.name = n)) := by
  induction ps with
  | nil => rfl
  | cons q qs ih =>
    obtain ⟨hq, hqs⟩ := List.pairwise_cons.mp h
    simp only [Production.insert]
    split
    · next hpq =>
      -- all names in the list are greater
      have hnone : p.name = n → (q :: qs).find? (·.name = n) = none := by
        rintro rfl
        refine List.find?_eq_none.mpr fun r hr heq => ?_
        have hlt : p.name < r.name := by
          rcases List.mem_cons.mp hr with rfl | hr
          · exact hpq
          · exact List.lt_trans hpq (hq r hr)
        exact List.lt_irrefl _ (of_decide_eq_true heq ▸ hlt)
      by_cases hn : p.name = n
      · rw [hnone hn, List.find?_cons_of_pos (by simpa using hn)]
        simp [hn]
      · rw [List.find?_cons_of_neg (by simpa using hn)]
        simp [hn]
    · split
      · by_cases hn : q.name = n
        · simp [hn]
        · rw [List.find?_cons_of_neg (by simpa using hn),
            List.find?_cons_of_neg (by simpa using hn), ih hqs]
      · next hpq hqp =>
        -- the name is there already
        have heq : p.name = q.name := List.le_antisymm (List.not_lt.mp hqp) (List.not_lt.mp hpq)
        by_cases hn : q.name = n <;> simp [hn, heq]

/-- The productions in the order of their names, the first of each name. -/
def ordered (ps : List Production) : List Production := ps.foldl (fun qs p => p.insert qs) []

/-- They are in order indeed. -/
theorem ordered_ordered (ps : List Production) : Ordered (ordered ps) := by
  suffices h : ∀ qs, Ordered qs → Ordered (ps.foldl (fun qs p => p.insert qs) qs) from
    h [] List.Pairwise.nil
  induction ps with
  | nil => exact fun _ h => h
  | cons p ps ih => exact fun qs h => ih _ (h.insert p)

/-- The order changes nothing in which one is the first of a name. -/
theorem find?_ordered (ps : List Production) (n : Text) :
    (ordered ps).find? (·.name = n) = ps.find? (·.name = n) := by
  suffices h : ∀ qs, Ordered qs → (ps.foldl (fun qs p => p.insert qs) qs).find? (·.name = n)
      = (qs.find? (·.name = n)).or (ps.find? (·.name = n)) from
    h [] List.Pairwise.nil
  induction ps with
  | nil => exact fun qs _ => Option.or_none.symm
  | cons p ps ih =>
    intro qs h
    rw [List.foldl_cons, ih _ (h.insert p), h.find?_insert, Option.or_assoc]
    by_cases hn : p.name = n <;> simp [hn]

/-- The productions by their names, the first of each name. -/
def index : List Production → Std.HashMap Text Production
  | [] => ∅
  | p :: ps => (index ps).insert p.name p

/-- The index finds what a search of the list would find. -/
theorem getElem?_index (ps : List Production) (n : Text) :
    (index ps)[n]? = ps.find? (·.name = n) := by
  induction ps with
  | nil => simp [index]
  | cons p ps ih =>
    rw [index, Std.HashMap.getElem?_insert, List.find?_cons, ih]
    by_cases h : p.name = n <;> simp [h]

end Production

/-- A grammar. -/
structure Grammar where
  /-- The productions. -/
  productions : List Production
  /-- They stand in the order of their names, no name twice. -/
  ordered : Production.Ordered productions
  /-- The productions by their names. -/
  index : Std.HashMap Text Production
  /-- That is what the index is. -/
  index_eq : index = Production.index productions
  /-- The hierarchy of the rules. -/
  hierarchy : Hierarchy
  /-- It is one of these productions. -/
  names_hierarchy : hierarchy.names = .ofList (productions.map (·.name))

namespace Grammar

/-- Whether a name is that of a token. -/
def isToken (n : Text) : Bool :=
  match n with
  | [] => false
  | b :: _ => 65 ≤ b && b ≤ 90

/-- The members of a production, if it is a category. -/
def membersOf? (p : Production) : Option (List Text) :=
  if isToken p.name then none else p.body.choiceOfNames?

/-- The names of the productions, in order. -/
def names (g : Grammar) : List Text := g.productions.map (·.name)

/-- The production of a name. -/
def get? (g : Grammar) (n : Text) : Option Production := g.index[n]?

/-- It is the one that stands in the list under that name. -/
theorem get?_eq_find? (g : Grammar) (n : Text) :
    g.get? n = g.productions.find? (·.name = n) := by
  rw [get?, g.index_eq, Production.getElem?_index]

/-- A production of the list is the one that its name has. -/
theorem get?_of_mem {g : Grammar} {p : Production} (h : p ∈ g.productions) :
    g.get? p.name = some p := by
  rw [get?_eq_find?, List.find?_eq_some_iff_append]
  obtain ⟨before, after, happ⟩ := List.append_of_mem h
  refine ⟨by simp, before, after, happ, fun q hq => ?_⟩
  -- all names before it are smaller
  have hord := g.ordered
  rw [happ] at hord
  have hlt : q.name < p.name := (List.pairwise_append.mp hord).2.2 q hq p (by simp)
  simpa using fun heq : q.name = p.name => List.lt_irrefl _ (heq ▸ hlt)

theorem get?_eq_some_iff {g : Grammar} {n : Text} {p : Production} :
    g.get? n = some p ↔ p ∈ g.productions ∧ p.name = n := by
  constructor
  · intro h
    rw [g.get?_eq_find?] at h
    exact ⟨List.mem_of_find?_eq_some h, by simpa using List.find?_some h⟩
  · rintro ⟨hp, rfl⟩
    exact get?_of_mem hp

/-- Whether a name has a production. -/
def has (g : Grammar) (n : Text) : Bool := (g.get? n).isSome

theorem has_of_get? {g : Grammar} {n : Text} {p : Production} (h : g.get? n = some p) :
    g.has n = true := by
  rw [has, h]
  rfl

theorem has_iff_mem_names {g : Grammar} {n : Text} : g.has n = true ↔ n ∈ g.names := by
  rw [has, Option.isSome_iff_exists, names, List.mem_map]
  exact exists_congr fun p => get?_eq_some_iff

/-- The names of the token productions, in order. -/
def tokenNames (g : Grammar) : List Text := g.names.filter isToken

/-- Makes `child` a member of `parent`, without a look at whether the two are
productions. -/
def addEdge (g : Grammar) (child parent : Text) : Grammar :=
  { g with
    hierarchy := g.hierarchy.add child parent
    names_hierarchy := by rw [Hierarchy.names_add, g.names_hierarchy] }

/-- The memberships a category declares: each defined member, in order. -/
def declared (g : Grammar) (p : Production) : List (Text × Text) :=
  match membersOf? p with
  | none => []
  | some ms => (ms.filter g.has).map (·, p.name)

/-- The grammar of some productions before any memberships. -/
def bare (ps : List Production) : Grammar :=
  let qs := Production.ordered ps
  ⟨qs, Production.ordered_ordered ps, Production.index qs, rfl, .flat (qs.map (·.name)), rfl⟩

/-- **The grammar of some productions**, with the memberships its categories
declare. -/
def ofProductions (ps : List Production) : Grammar :=
  let g := bare ps
  (g.productions.flatMap g.declared).foldl (fun g (child, parent) => g.addEdge child parent) g

/-- Memberships do not change the productions. -/
theorem productions_ofProductions (ps : List Production) :
    (ofProductions ps).productions = Production.ordered ps := by
  have h : ∀ (edges : List (Text × Text)) (g : Grammar),
      (edges.foldl (fun g (child, parent) => g.addEdge child parent) g).productions
        = g.productions := by
    intro edges
    induction edges with
    | nil => exact fun g => rfl
    | cons e edges ih => exact fun g => ih _
  exact h _ _

/-- **The production of a name is the first that was given under it.** -/
theorem get?_ofProductions (ps : List Production) (n : Text) :
    (ofProductions ps).get? n = ps.find? (·.name = n) := by
  rw [get?_eq_find?, productions_ofProductions, Production.find?_ordered]

theorem mem_of_get?_ofProductions {ps : List Production} {n : Text} {p : Production}
    (h : (ofProductions ps).get? n = some p) : p ∈ ps ∧ p.name = n := by
  rw [get?_ofProductions] at h
  have hname := List.find?_some h
  exact ⟨List.mem_of_find?_eq_some h, of_decide_eq_true hname⟩

/-- The members of a category, if the name is one. -/
def members? (g : Grammar) (n : Text) : Option (List Text) :=
  (g.get? n).bind membersOf?

/-- Whether a name is that of a category. -/
def isCategory (g : Grammar) (n : Text) : Bool := (g.members? n).isSome

/-- The direct classes of a production. -/
def parents (g : Grammar) (n : Text) : List Text := g.hierarchy.parents n

/-- The rule of a name: that of its production, or a plain name, of which
nothing in a tree is an instance. -/
def rule (g : Grammar) (n : Text) : Rule :=
  if g.has n then .production n else .plain n

/-- The rule that a token of kind `n` gets; it is nameless if there is no such
production. -/
def tokenRule (g : Grammar) (n : Text) : Rule :=
  if g.has n then .production n else .nameless

/-- Why a membership cannot be added. -/
inductive ClassifyError where
  /-- The member is no production. -/
  | noMember (child : Text)
  /-- The class is no production. -/
  | noClass (child parent : Text)
  deriving DecidableEq, Repr

/-- The wording of the error. -/
def ClassifyError.message : ClassifyError → Text
  | noMember c => utf8 "classify " ++ c ++ utf8 ": no such production"
  | noClass c p => utf8 "classify " ++ c ++ utf8 " as " ++ p ++ utf8 ": no such production"

/-- **Makes `child` an instance of `parent`.** Both must be productions. -/
def classify (g : Grammar) (child parent : Text) : Except ClassifyError Grammar :=
  if !g.has child then .error (.noMember child)
  else if !g.has parent then .error (.noClass child parent)
  else .ok (g.addEdge child parent)

/-- Reads a grammar from a file called `file`. -/
def read (file source : Text) : Except (List Problem) Grammar :=
  (readProductions file source).map ofProductions

end Grammar

end Arbor
