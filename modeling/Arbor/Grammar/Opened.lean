import Std.Data.TreeSet
import Arbor.Grammar

/-!
# Opened productions

Both the matcher of tokens and the parser follow names into productions, and
both refuse to enter a production a second time before something has been
consumed. The names entered are **opened**. Since a name is opened only if it
has a production and is not opened yet, the number of productions still
`unopened` bounds how deep names can be followed at one place.
-/

namespace Arbor

namespace Grammar

/-- The names of opened productions. -/
abbrev Opened := Std.TreeSet Text compare

/-- What is opened by opening one more production. -/
theorem mem_insert_opened {opened : Opened} {n m : Text} :
    m ∈ opened.insert n ↔ m = n ∨ m ∈ opened := by
  rw [Std.TreeSet.mem_insert, Std.LawfulEqCmp.compare_eq_iff_eq, eq_comm]

/-- How many productions are not opened. -/
def unopened (g : Grammar) (opened : Opened) : Nat :=
  (g.names.filter (· ∉ opened)).length

/-- Where more is opened, no more is unopened. -/
theorem unopened_le (g : Grammar) {opened opened' : Opened} (h : ∀ n, n ∈ opened → n ∈ opened') :
    g.unopened opened' ≤ g.unopened opened := by
  unfold unopened
  rw [← List.countP_eq_length_filter, ← List.countP_eq_length_filter]
  refine List.countP_mono_left fun n _ hn => ?_
  exact decide_eq_true fun ho => of_decide_eq_true hn (h n ho)

/-- A name that has a production is one of the names. -/
theorem mem_names_of_get? {g : Grammar} {n : Text} {p : Production} (h : g.get? n = some p) :
    n ∈ g.names :=
  List.mem_map.mpr ⟨p, get?_eq_some_iff.mp h⟩

/-- Opening a production leaves fewer unopened. -/
theorem unopened_insert_lt {g : Grammar} {opened : Opened} {n : Text}
    (hn : n ∈ g.names) (ho : n ∉ opened) : g.unopened (opened.insert n) < g.unopened opened := by
  unfold unopened
  have hsub : (g.names.filter (· ∉ opened.insert n)) =
      (g.names.filter (· ∉ opened)).filter (· ≠ n) := by
    rw [List.filter_filter]
    congr 1
    funext m
    by_cases h : m = n
    · simp [Std.TreeSet.mem_insert, h]
    · simp [Std.TreeSet.mem_insert, h, Ne.symm h]
  rw [hsub]
  refine List.length_filter_lt_length_iff_exists.mpr ⟨n, ?_, by simp⟩
  simp [hn, ho]

end Grammar

end Arbor
