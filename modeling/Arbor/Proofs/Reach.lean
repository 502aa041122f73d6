import Arbor.Reach
import Mathlib.Logic.Relation

/-!
# What a breadth-first search comes upon

A search starts from some roots, follows edges and never leaves a given set. What it ought
to come upon can be said without a queue: `Reachable next within roots` holds of the roots
that lie in the set, and of whatever in the set is next to such a vertex. The search comes
upon these vertices and no others (`mem_breadthFirst_iff`), and upon each of them once
(`nodup_breadthFirst`).

The set of unseen vertices shrinks as the search goes on, so the induction has to say what
a vertex that is taken out of the set was good for. Nothing is lost with it: a way through
that vertex leads on from one of its neighbours, and they are pending by then
(`reachable_cons_of_mem`).
-/

namespace Arbor

variable {α : Type} [BEq α] [Hashable α]

/-- **The vertices that can be reached** from some roots without leaving a set. -/
inductive Reachable (next : α → List α) (within : Std.HashSet α) (roots : List α) : α → Prop
  | root {v} (hr : v ∈ roots) (hv : v ∈ within) : Reachable next within roots v
  | step {v w} (hw : w ∈ within) (hn : w ∈ next v) :
      Reachable next within roots v → Reachable next within roots w

variable {next : α → List α} {within : Std.HashSet α} {roots : List α} {v w : α}

namespace Reachable

theorem mem (h : Reachable next within roots v) : v ∈ within := by
  cases h with
  | root _ hv => exact hv
  | step hw => exact hw

/-- From one vertex of a set that is closed under `next`, what can be reached is what is
related to it by any number of steps. -/
theorem singleton_iff (hclosed : ∀ x y, y ∈ next x → y ∈ within) (hv : v ∈ within) :
    Reachable next within [v] w ↔ Relation.ReflTransGen (fun x y => y ∈ next x) v w := by
  constructor
  · intro h
    induction h with
    | root hr =>
      rw [List.mem_singleton] at hr
      rw [hr]
    | step _ hn _ ih => exact ih.tail hn
  · intro h
    induction h with
    | refl => exact .root (List.mem_singleton_self v) hv
    | tail _ hn ih => exact .step (hclosed _ _ hn) hn ih

end Reachable

/-- A root outside the set leads nowhere. -/
theorem reachable_cons_of_not_mem (hv : v ∉ within) :
    Reachable next within (v :: roots) w ↔ Reachable next within roots w := by
  constructor
  · intro h
    induction h with
    | @root x hr hx =>
      have hne : x ≠ v := fun heq => hv (heq ▸ hx)
      exact .root (List.mem_of_ne_of_mem hne hr) hx
    | step hw hn _ ih => exact .step hw hn ih
  · intro h
    induction h with
    | root hr hx => exact .root (List.mem_cons_of_mem v hr) hx
    | step hw hn _ ih => exact .step hw hn ih

variable [LawfulBEq α]

/-- **A root may be exchanged for its neighbours** and taken out of the set. -/
theorem reachable_cons_of_mem (hv : v ∈ within) :
    Reachable next within (v :: roots) w
      ↔ w = v ∨ Reachable next (within.erase v) (roots ++ next v) w := by
  have hin : ∀ {x}, x ∈ within → x ≠ v → x ∈ within.erase v := by
    intro x hx hne
    exact Std.HashSet.mem_erase.mpr ⟨beq_false_of_ne hne.symm, hx⟩
  constructor
  · intro h
    induction h with
    | @root x hr hx =>
      by_cases hxv : x = v
      · exact .inl hxv
      · have hx' : x ∈ roots := List.mem_of_ne_of_mem hxv hr
        exact .inr (.root (List.mem_append_left _ hx') (hin hx hxv))
    | @step x y hy hn _ ih =>
      by_cases hyv : y = v
      · exact .inl hyv
      · -- a way through `v` starts anew behind it
        refine .inr (ih.elim (fun hxv => ?_) fun hx => .step (hin hy hyv) hn hx)
        exact .root (List.mem_append_right _ (hxv ▸ hn)) (hin hy hyv)
  · have hroot : Reachable next within (v :: roots) v := .root List.mem_cons_self hv
    rintro (rfl | h)
    · exact hroot
    · induction h with
      | root hr hx =>
        have hx' := Std.HashSet.mem_of_mem_erase hx
        rcases List.mem_append.mp hr with hr | hr
        · exact .root (List.mem_cons_of_mem v hr) hx'
        · exact .step hx' hr hroot
      | step hw hn _ ih => exact .step (Std.HashSet.mem_of_mem_erase hw) hn ih

/-- **A breadth-first search comes upon what can be reached**, and nothing else. -/
theorem mem_breadthFirst_iff :
    v ∈ breadthFirst next within roots ↔ Reachable next within roots v := by
  fun_induction breadthFirst next within roots with
  | case1 within =>
    refine ⟨fun h => absurd h List.not_mem_nil, fun h => ?_⟩
    induction h with
    | root hr => exact hr
    | step _ _ _ ih => exact absurd ih List.not_mem_nil
  | case2 within u pending hu _ ih =>
    rw [List.mem_cons, ih, reachable_cons_of_mem hu]
  | case3 within u pending hu ih =>
    rw [ih, reachable_cons_of_not_mem hu]

/-- **It comes upon no vertex twice.** -/
theorem nodup_breadthFirst : (breadthFirst next within roots).Nodup := by
  fun_induction breadthFirst next within roots with
  | case1 within => exact List.nodup_nil
  | case2 within u pending hu _ ih =>
    refine List.nodup_cons.mpr ⟨fun hmem => ?_, ih⟩
    -- what comes later is within the rest of the set, and that is without this vertex
    have hrest := (mem_breadthFirst_iff.mp hmem).mem
    rw [Std.HashSet.mem_erase] at hrest
    exact absurd (beq_self_eq_true u) (Bool.eq_false_iff.mp hrest.1)
  | case3 within u pending hu ih => exact ih

end Arbor
