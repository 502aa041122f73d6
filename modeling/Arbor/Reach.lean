import Std.Data.HashSet

/-!
# Breadth-first search

The vertices of a finite graph that can be reached from some roots, in the
order in which a breadth-first search comes upon them. Each visit takes a
vertex out of the finite set that is still unseen, so the search ends whatever
cycles there are.
-/

namespace Arbor

variable {α : Type} [BEq α] [LawfulBEq α] [Hashable α]

/-- Taking an element out of a set leaves fewer. -/
theorem size_erase_lt {s : Std.HashSet α} {a : α} (h : a ∈ s) : (s.erase a).size < s.size := by
  have hs : s.size ≠ 0 := by
    intro h0
    have : s.isEmpty = true := by rw [Std.HashSet.isEmpty_eq_size_eq_zero, h0]; rfl
    exact Std.HashSet.isEmpty_iff_forall_not_mem.mp this a h
  rw [Std.HashSet.size_erase, if_pos h]
  omega

/-- **The vertices reached from `pending`** through `next` without leaving
`unseen`, nearest first, each once. -/
def breadthFirst (next : α → List α) (unseen : Std.HashSet α) : (pending : List α) → List α
  | [] => []
  | v :: pending =>
    if h : v ∈ unseen then
      have := size_erase_lt h
      v :: breadthFirst next (unseen.erase v) (pending ++ next v)
    else breadthFirst next unseen pending
termination_by pending => (unseen.size, pending.length)
decreasing_by
  · exact Prod.Lex.left _ _ this
  · exact Prod.Lex.right _ (by simp)

end Arbor
