import Mathlib.Data.List.Induction
import Arbor.Path

/-!
# Going up by names

The directory of a file name is what stands before its last slash, in normal form
(`Path.directory`). Going from a directory to its directory again and again is a matter of names
alone, and it is not clear from the definition that it gets anywhere: `.` and `/` are directories of
themselves, and the directory of `a` is `.`, which is no shorter.

`Path.Ascent` is the list of the directories on such a way, up to one that is its own directory. A
name in normal form that starts at the root directory has an ascent (`Path.ascent_render`): each
step takes back the last part, so that the way ends at the root directory when no part is left. The
ascent is the list of leading parts that `Path.upward` computes at once.
-/

namespace Arbor

namespace Text

/-- The parts of two texts with a separator between them are those of the two. -/
theorem split_append (sep : UInt8) (t u : Text) :
    split sep (t ++ sep :: u) = split sep t ++ split sep u := by
  induction t with
  | nil => exact if_pos rfl
  | cons b t ih =>
    obtain ⟨part, parts, hs⟩ := List.exists_cons_of_ne_nil (split_ne_nil sep t)
    rw [List.cons_append, split, split, ih, hs]
    by_cases hb : b = sep
    · rw [if_pos hb, if_pos hb]
      rfl
    · rw [if_neg hb, if_neg hb]
      rfl

theorem split_of_not_mem {sep : UInt8} {t : Text} (h : sep ∉ t) : split sep t = [t] := by
  induction t with
  | nil => rfl
  | cons b t ih =>
    rw [List.mem_cons, not_or] at h
    rw [split, if_neg (Ne.symm h.1), ih h.2]

/-- No separator is in a part. -/
theorem not_mem_of_mem_split {sep : UInt8} {t part : Text} (h : part ∈ split sep t) :
    sep ∉ part := by
  induction t generalizing part with
  | nil =>
    obtain rfl := List.mem_singleton.mp h
    exact List.not_mem_nil
  | cons b t ih =>
    obtain ⟨u, us, hs⟩ := List.exists_cons_of_ne_nil (split_ne_nil sep t)
    rw [split, hs] at h
    rw [hs] at ih
    by_cases hb : b = sep
    · rw [if_pos hb] at h
      rcases List.mem_cons.mp h with rfl | h
      · exact List.not_mem_nil
      · exact ih h
    · rw [if_neg hb] at h
      rcases List.mem_cons.mp h with rfl | h
      · rw [List.mem_cons, not_or]
        exact ⟨Ne.symm hb, ih List.mem_cons_self⟩
      · exact ih (List.mem_cons_of_mem _ h)

/-- Joined texts are the last one behind the others, each of these with the separator behind it. -/
theorem join_concat (sep : Text) (ts : List Text) (t : Text) :
    join sep (ts ++ [t]) = ts.flatMap (· ++ sep) ++ t := by
  induction ts with
  | nil => rfl
  | cons u us ih =>
    rw [List.flatMap_cons, List.append_assoc, ← ih]
    cases us <;> rfl

theorem split_flatMap {sep : UInt8} {parts : List Text} (h : ∀ part ∈ parts, sep ∉ part)
    {last : Text} (hlast : sep ∉ last) :
    split sep (parts.flatMap (· ++ [sep]) ++ last) = parts ++ [last] := by
  induction parts with
  | nil => exact split_of_not_mem hlast
  | cons part parts ih =>
    rw [List.forall_mem_cons] at h
    rw [List.flatMap_cons, List.append_assoc, List.append_assoc, List.singleton_append,
      split_append, split_of_not_mem h.1, ih h.2]
    rfl

end Text

namespace Path

/-! ## Names in normal form -/

/-- **Whether a part is the name of something in a directory.** -/
structure IsName (part : Text) : Prop where
  /-- It is not empty. -/
  ne_nil : part ≠ []
  /-- It is not the directory itself. -/
  ne_here : part ≠ here
  /-- It is not the directory around. -/
  ne_up : part ≠ up
  /-- There is no slash in it. -/
  slash_not_mem : slash ∉ part

/-- **Whether a path leads from the root directory down by names.** -/
structure IsNormal (p : Path) : Prop where
  /-- It starts at the root directory. -/
  rooted : p.rooted = true
  /-- Its parts are names. -/
  isName : ∀ part ∈ p.parts, IsName part

theorem IsNormal.take {p : Path} (h : p.IsNormal) (n : Nat) :
    IsNormal { p with parts := p.parts.take n } :=
  ⟨h.rooted, fun part hpart => h.isName part (List.mem_of_mem_take hpart)⟩

/-- A name leads one directory further in. -/
theorem step_of_isName {part : Text} (h : IsName part) (rooted : Bool) (inside : List Text) :
    step rooted inside part = part :: inside := by
  unfold step
  rw [if_neg (not_or.mpr ⟨h.ne_nil, h.ne_here⟩), if_neg h.ne_up]

theorem foldl_step_of_isName {parts : List Text} (h : ∀ part ∈ parts, IsName part) (rooted : Bool)
    (inside : List Text) : parts.foldl (step rooted) inside = parts.reverse ++ inside := by
  induction parts generalizing inside with
  | nil => rfl
  | cons part parts ih =>
    rw [List.forall_mem_cons] at h
    rw [List.foldl_cons, step_of_isName h.1, ih h.2, List.reverse_cons, List.append_assoc]
    rfl

/-- From the root directory, a part without a slash leads on by names only: it can take back a name,
but there is nothing above the root directory. -/
theorem isName_of_mem_step {inside : List Text} (h : ∀ part ∈ inside, IsName part) {part : Text}
    (hpart : slash ∉ part) : ∀ q ∈ step true inside part, IsName q := by
  unfold step
  by_cases hsame : part = [] ∨ part = here
  · rwa [if_pos hsame]
  · rw [if_neg hsame]
    by_cases hup : part = up
    · rw [if_pos hup]
      cases inside with
      | nil => exact h
      | cons last rest =>
        rw [List.forall_mem_cons] at h
        show ∀ q ∈ if last = up then up :: last :: rest else rest, _
        rw [if_neg h.1.ne_up]
        exact h.2
    · rw [if_neg hup]
      obtain ⟨hnil, hhere⟩ := not_or.mp hsame
      exact List.forall_mem_cons.mpr ⟨⟨hnil, hhere, hup, hpart⟩, h⟩

theorem isName_of_mem_foldl_step {parts inside : List Text}
    (hparts : ∀ part ∈ parts, slash ∉ part) (h : ∀ part ∈ inside, IsName part) :
    ∀ q ∈ parts.foldl (step true) inside, IsName q := by
  induction parts generalizing inside with
  | nil => exact h
  | cons part parts ih =>
    rw [List.forall_mem_cons] at hparts
    exact ih hparts.2 (isName_of_mem_step h hparts.1)

theorem ofText_of_isRooted {name : Text} (h : isRooted name = true) :
    ofText name = ⟨true, ((name.split slash).foldl (step true) []).reverse⟩ := by
  unfold ofText
  rw [h]

/-- **The normal form of a name from the root directory.** -/
theorem isNormal_ofText {name : Text} (h : isRooted name = true) : (ofText name).IsNormal := by
  rw [ofText_of_isRooted h]
  refine ⟨rfl, fun part hpart => ?_⟩
  exact isName_of_mem_foldl_step (fun _ => Text.not_mem_of_mem_split)
    (fun q hq => absurd hq List.not_mem_nil) part (List.mem_reverse.mp hpart)

/-- A name that goes on behind a slash has the parts of its beginning, and goes on from there. -/
theorem ofText_append {directory : Text} (h : isRooted directory = true) {part : Text}
    (hpart : slash ∉ part) :
    ofText (directory ++ slash :: part)
      = ⟨true, (step true (ofText directory).parts.reverse part).reverse⟩ := by
  have hrooted : isRooted (directory ++ slash :: part) = true := by
    cases directory with
    | nil => rfl
    | cons b rest => exact h
  rw [ofText_of_isRooted hrooted, ofText_of_isRooted h, Text.split_append,
    Text.split_of_not_mem hpart, List.foldl_append, List.reverse_reverse]
  rfl

/-- Names from the root directory, a slash behind each, lead to where a last part goes on. -/
theorem ofText_flatMap {parts : List Text} (h : ∀ part ∈ parts, IsName part) {last : Text}
    (hlast : slash ∉ last) :
    ofText (slash :: (parts.flatMap (· ++ [slash]) ++ last))
      = ⟨true, (step true parts.reverse last).reverse⟩ := by
  have hsplit : Text.split slash (slash :: (parts.flatMap (· ++ [slash]) ++ last))
      = [] :: (parts ++ [last]) := by
    rw [← Text.split_flatMap (fun part hpart => (h part hpart).slash_not_mem) hlast]
    exact Text.split_append slash [] _
  have hnothing : step true [] [] = [] := rfl
  rw [ofText_of_isRooted rfl, hsplit, List.foldl_cons, hnothing, List.foldl_append,
    foldl_step_of_isName h, List.append_nil]
  rfl

/-- The root directory. -/
def root : Path := ⟨true, []⟩

theorem render_concat (parts : List Text) (part : Text) :
    render ⟨true, parts ++ [part]⟩ = slash :: (parts.flatMap (· ++ [slash]) ++ part) :=
  congrArg (slash :: ·) (Text.join_concat [slash] parts part)

/-- **The name of a path leads back to the path.** -/
theorem ofText_render {p : Path} (h : p.IsNormal) : ofText p.render = p := by
  obtain ⟨rooted, parts⟩ := p
  obtain rfl : rooted = true := h.rooted
  cases parts using List.reverseRecOn with
  | nil => rfl
  | append_singleton parts part =>
    have hpart := h.isName part (List.mem_append_right _ List.mem_cons_self)
    rw [render_concat, ofText_flatMap (fun q hq => h.isName q (List.mem_append_left _ hq))
      hpart.slash_not_mem, step_of_isName hpart, List.reverse_cons, List.reverse_reverse]

theorem isRooted_render {p : Path} (h : p.IsNormal) : isRooted p.render = true := by
  rw [render, if_pos h.rooted]
  rfl

/-- What stands in a name up to its last slash. -/
theorem upTo_last_slash (lead : Text) {part : Text} (h : slash ∉ part) :
    ((lead ++ slash :: part).reverse.dropWhile (· ≠ slash)).reverse = lead ++ [slash] := by
  have hdrop : ∀ b ∈ part.reverse, decide (b ≠ slash) = true := fun b hb =>
    decide_eq_true fun hslash => h (hslash ▸ List.mem_reverse.mp hb)
  rw [List.reverse_append, List.reverse_cons, List.append_assoc,
    List.dropWhile_append_of_pos hdrop]
  simp

/-- **The directory of a path** is the path without its last part. -/
theorem directory_render {p : Path} (h : p.IsNormal) :
    directory p.render = render { p with parts := p.parts.dropLast } := by
  obtain ⟨rooted, parts⟩ := p
  obtain rfl : rooted = true := h.rooted
  cases parts using List.reverseRecOn with
  | nil => rfl
  | append_singleton parts part =>
    have hparts : ∀ q ∈ parts, IsName q := fun q hq => h.isName q (List.mem_append_left _ hq)
    have hpart := (h.isName part (List.mem_append_right _ List.mem_cons_self)).slash_not_mem
    -- what stands before the last part ends with a slash, be it that of the root directory
    obtain ⟨lead, hlead⟩ : ∃ lead, slash :: parts.flatMap (· ++ [slash]) = lead ++ [slash] := by
      cases parts using List.reverseRecOn with
      | nil => exact ⟨[], rfl⟩
      | append_singleton parts q => exact ⟨slash :: (parts.flatMap (· ++ [slash]) ++ q), by simp⟩
    have hname : render ⟨true, parts ++ [part]⟩ = lead ++ slash :: part := by
      rw [render_concat, ← List.cons_append, hlead, List.append_assoc]
      rfl
    have hbefore : ofText (lead ++ [slash]) = ⟨true, parts⟩ := by
      rw [← hlead, ← List.append_nil (parts.flatMap _), ofText_flatMap hparts List.not_mem_nil]
      exact congrArg (Path.mk true) (List.reverse_reverse parts)
    rw [directory, hname, upTo_last_slash lead hpart, clean, hbefore, List.dropLast_concat]

/-- The name of something in a directory leads there. -/
theorem join_render {p : Path} (h : p.IsNormal) {name : Text} (hname : IsName name) :
    join p.render name = render { p with parts := p.parts ++ [name] } := by
  have hne : p.render ≠ [] := by
    rw [render, if_pos h.rooted]
    exact List.cons_ne_nil _ _
  rw [join, if_neg hne, clean, List.append_assoc]
  have happend := ofText_append (isRooted_render h) hname.slash_not_mem
  rw [ofText_render h, step_of_isName hname, List.reverse_cons, List.reverse_reverse] at happend
  refine (congrArg render happend).trans ?_
  obtain ⟨rooted, parts⟩ := p
  obtain rfl : rooted = true := h.rooted
  rfl

theorem IsNormal.concat {p : Path} (h : p.IsNormal) {name : Text} (hname : IsName name) :
    IsNormal { p with parts := p.parts ++ [name] } := by
  refine ⟨h.rooted, fun part hpart => ?_⟩
  rcases List.mem_append.mp hpart with hpart | hpart
  · exact h.isName part hpart
  · exact List.mem_singleton.mp hpart ▸ hname

/-- What is in a directory has that directory. -/
theorem directory_join_render {p : Path} (h : p.IsNormal) {name : Text} (hname : IsName name) :
    directory (join p.render name) = p.render := by
  rw [join_render h hname, directory_render (h.concat hname), List.dropLast_concat]

/-- A name seen from a directory below the root directory is one of the names from there. -/
theorem exists_render_absolute {current : Text} (h : isRooted current = true) (name : Text) :
    ∃ p : Path, p.IsNormal ∧ absolute current name = p.render := by
  unfold absolute
  by_cases hname : isRooted name = true
  · rw [if_pos hname]
    exact ⟨_, isNormal_ofText hname, rfl⟩
  · have hne : current ≠ [] := by
      rintro rfl
      cases h
    have hrooted : isRooted (current ++ [slash] ++ name) = true := by
      cases current with
      | nil => exact absurd rfl hne
      | cons b rest => exact h
    rw [if_neg hname, join, if_neg hne]
    exact ⟨_, isNormal_ofText hrooted, rfl⟩

/-! ## The way up -/

/-- **The way up from a directory**: the directory and those around it as far as the names tell,
each the directory of the one before. It ends with one that is its own directory. -/
inductive Ascent : Text → List Text → Prop
  /-- The way ends here. -/
  | top {directory} (h : Path.directory directory = directory) : Ascent directory [directory]
  /-- Or it goes on with the directory around. -/
  | up {directory rest} (h : Path.directory directory ≠ directory) :
      Ascent (Path.directory directory) rest → Ascent directory (directory :: rest)

theorem Ascent.unique {directory : Text} {ds es : List Text} (hd : Ascent directory ds)
    (he : Ascent directory es) : ds = es := by
  induction hd generalizing es with
  | top h =>
    cases he with
    | top => rfl
    | up h' => exact absurd h h'
  | up h _ ih =>
    cases he with
    | top h' => exact absurd h' h
    | up _ he => rw [ih he]

theorem upward_concat (rooted : Bool) (parts : List Text) (part : Text) :
    upward ⟨rooted, parts ++ [part]⟩ = ⟨rooted, parts ++ [part]⟩ :: upward ⟨rooted, parts⟩ := by
  have htake : ∀ n ∈ (List.range (parts.length + 1)).reverse,
      (⟨rooted, (parts ++ [part]).take n⟩ : Path) = ⟨rooted, parts.take n⟩ := by
    intro n hn
    have hle : n ≤ parts.length := Nat.le_of_lt_succ (List.mem_range.mp (List.mem_reverse.mp hn))
    rw [List.take_append_of_le_length hle]
  unfold upward
  dsimp only
  rw [List.length_append, List.length_singleton, List.range_succ, List.reverse_append,
    List.reverse_singleton, List.singleton_append, List.map_cons, List.map_congr_left htake,
    List.take_of_length_le (by simp)]

theorem isNormal_of_mem_upward {p q : Path} (h : p.IsNormal) (hq : q ∈ p.upward) : q.IsNormal := by
  obtain ⟨n, -, rfl⟩ := List.mem_map.mp hq
  exact h.take n

/-- **The way up ends at the root directory**, and goes through the leading parts of the path. -/
theorem ascent_render {p : Path} (h : p.IsNormal) :
    Ascent p.render (p.upward.map render)
      ∧ (p.upward.map render).getLast? = some (render root) := by
  obtain ⟨rooted, parts⟩ := p
  obtain rfl : rooted = true := h.rooted
  induction parts using List.reverseRecOn with
  | nil => exact ⟨.top rfl, rfl⟩
  | append_singleton parts part ih =>
    have hparts : IsNormal ⟨true, parts⟩ :=
      ⟨rfl, fun q hq => h.isName q (List.mem_append_left _ hq)⟩
    have hup : directory (render ⟨true, parts ++ [part]⟩) = render ⟨true, parts⟩ := by
      rw [directory_render h, List.dropLast_concat]
    obtain ⟨hascent, hlast⟩ := ih hparts
    rw [upward_concat, List.map_cons]
    refine ⟨.up ?_ (hup ▸ hascent), ?_⟩
    · rw [hup]
      intro heq
      -- the name tells the path, and this one has a part less
      have hpath := congrArg ofText heq
      rw [ofText_render hparts, ofText_render h] at hpath
      exact absurd (congrArg (fun q => q.parts.length) hpath) (by simp)
    · rw [List.getLast?_cons, hlast]
      rfl

end Path

end Arbor
