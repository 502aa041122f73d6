import Std.Data.HashMap
import Arbor.Text
import Arbor.Reach
import Arbor.Fault

/-!
# Rules and their hierarchy

Nodes carry the **rule** that produced them, and rules form a hierarchy: a
rule can be an instance of others, its *classes*, directly or through classes
of classes. The hierarchy belongs to a grammar and not to its rules, so that
trees stay plain data and every question about classes names the hierarchy it
is asked of.

Cycles are allowed; a rule is an instance of itself in any case.
-/

namespace Arbor

/-- A rule. -/
inductive Rule where
  /-- The rule of a production, which may have classes. -/
  | production (name : Text)
  /-- A name on its own, an instance of nothing but that name. -/
  | plain (name : Text)
  /-- The rule of a token kind without a production. It has no name, and to
  ask for its name or its classes is a fault. -/
  | nameless
  deriving DecidableEq, Repr

namespace Rule

/-- The name of a rule, if it has one. -/
def name? : Rule → Option Text
  | production n => some n
  | plain n => some n
  | nameless => none

/-- The name of a rule; a rule without one is a fault. -/
def name : Rule → Except Fault Text
  | production n => .ok n
  | plain n => .ok n
  | nameless => .error .namelessRule

end Rule

/-- **A hierarchy of productions.** -/
structure Hierarchy where
  /-- The names of the productions. -/
  names : Std.HashSet Text
  /-- The direct classes of the members, by the names of those. -/
  above : Std.HashMap Text (List Text)

namespace Hierarchy

/-- The hierarchy of some productions, none of them a member of another. -/
def flat (names : List Text) : Hierarchy := ⟨.ofList names, ∅⟩

/-- The hierarchy without productions. -/
def empty : Hierarchy := flat []

/-- The direct classes of a production, in the order they were added. -/
def parents (h : Hierarchy) (n : Text) : List Text := h.above.getD n []

/-- Makes `child` a member of `parent`. Nothing changes if it is one already,
or if the two are the same. -/
def add (h : Hierarchy) (child parent : Text) : Hierarchy :=
  if child = parent ∨ parent ∈ h.parents child then h
  else { h with above := h.above.insert child (h.parents child ++ [parent]) }

/-- The productions stay the same. -/
@[simp] theorem names_add (h : Hierarchy) (child parent : Text) :
    (h.add child parent).names = h.names := by
  unfold add
  split <;> rfl

/-- A membership that is added comes last among those of its member. -/
theorem parents_add_self (h : Hierarchy) {child parent : Text} (hne : child ≠ parent)
    (hnew : parent ∉ h.parents child) :
    (h.add child parent).parents child = h.parents child ++ [parent] := by
  simp [add, parents, hne, show parent ∉ h.above.getD child [] from hnew]

/-- The memberships of others stay as they are. -/
theorem parents_add_of_ne (h : Hierarchy) {child other : Text} (parent : Text)
    (hne : other ≠ child) : (h.add child parent).parents other = h.parents other := by
  unfold add
  split
  · rfl
  · simp [parents, Std.HashMap.getD_insert, Ne.symm hne]

/-- All classes of a production, itself first. -/
def classes (h : Hierarchy) (n : Text) : List Text :=
  breadthFirst h.parents h.names [n]

/-- **Whether a rule is an instance of a class.** A production is an instance
of all its classes, by name; a plain name only of itself, and it needs the name
of the class. A rule without a name is an instance of itself, and it is a fault
to ask it for any other class. -/
def isA (h : Hierarchy) (r cls : Rule) : Except Fault Bool :=
  match r with
  | .nameless => if cls = .nameless then return true else .error .namelessRule
  | .plain n => return (← cls.name) = n
  | .production n => match cls.name? with
    | none => return false
    | some c => return c ∈ h.classes n

end Hierarchy

end Arbor
