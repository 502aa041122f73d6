import Arbor.Json
import Arbor.Proofs.Text.Decimal
import Arbor.Proofs.Text.Quoted

/-!
# A written value can be told

The compact form of a JSON value shows which value it is, as long as its strings are well-formed
UTF-8 (`Json.compact_inj`). No reader is needed for that. What is shown is more: a value in front
of a text that does not go on with a digit shows the value *and* where it ends
(`Json.writeCompact_inj`), and this goes through by induction, since inside a value every other
one stands in front of a comma or a closing bracket.

The first byte tells the four shapes of values apart (`Json.shape_writeCompact`). Strings are read
back piece by piece, as quoted texts are: the escapes used here are among those that
`Piece.first?` knows. A stray byte is written as the replacement character, whichever it is, and
that is why strings have to be well formed.
-/

namespace Arbor

namespace Json

/-! ## Strings -/

theorem first?_escapeLetter_append {c l : Char} (h : escapeLetter? c = some l) (u : Text) :
    Piece.first? (utf8 "\\" ++ String.utf8EncodeChar l ++ u) = some (.char c, u) := by
  have hc : c = Char.ofNat c.toNat := (Char.ofNat_toNat c).symm
  unfold escapeLetter? at h
  rw [hc]
  split at h <;> cases h
  all_goals next hn => rw [hn]; rfl

/-- What is guarded has a code of four hexadecimal digits. -/
theorem toNat_lt_of_isGuarded {c : Char} (h : isGuarded c = true) : c.toNat < 0x10000 := by
  unfold isGuarded at h
  simp only [Bool.or_eq_true, decide_eq_true_eq] at h
  rcases h with (((rfl | rfl) | rfl) | h) | h
  · decide
  · decide
  · decide
  · omega
  · omega

/-- **An escaped character is read back.** -/
theorem first?_escaped_append (c : Char) (u : Text) :
    Piece.first? (escaped (.char c) ++ u) = some (.char c, u) := by
  unfold escaped
  dsimp only
  split
  · next l hl => exact first?_escapeLetter_append hl u
  · next hl =>
    split
    · next hcode =>
      have hn : c.toNat < 0x10000 := hcode.elim (fun h => by omega) toNat_lt_of_isGuarded
      exact Piece.first?_hex_append rfl hn (fun hw => absurd hw (by decide)) u
    · -- the quote and the backslash have letters
      have hq : c ≠ '"' := by
        rintro rfl
        cases hl
      have hb : c ≠ '\\' := by
        rintro rfl
        cases hl
      exact Piece.first?_utf8EncodeChar_append hq hb u

theorem quoted_append (t u : Text) :
    quoted t ++ u = 34 :: (t.pieces.flatMap escaped ++ 34 :: u) := by
  unfold quoted
  rw [List.append_assoc, List.append_assoc]
  rfl

/-- **A string shows which text it is and where it ends.** -/
theorem quoted_append_inj {t t' u v : Text} (ht : t.isUtf8 = true) (ht' : t'.isUtf8 = true)
    (h : quoted t ++ u = quoted t' ++ v) : t = t' ∧ u = v := by
  have hread : ∀ s : Text, s.isUtf8 = true → ∀ p ∈ s.pieces, ∀ u,
      Piece.first? (escaped p ++ u) = some (p, u) := by
    intro s hs p hp u
    have hchar := List.all_eq_true.mp hs p hp
    cases p with
    | char c => exact first?_escaped_append c u
    | stray b => cases hchar
  rw [quoted_append, quoted_append] at h
  obtain ⟨hp, hu⟩ :=
    Piece.flatMap_append_inj (hread t ht) (hread t' ht') (List.cons.inj h).2
  exact ⟨Text.pieces_inj hp, hu⟩

/-! ## The shape of a value -/

/-- The four shapes of values. -/
inductive Shape where
  /-- Numbers. -/
  | number
  /-- Strings. -/
  | string
  /-- Arrays. -/
  | array
  /-- Objects. -/
  | object

/-- The shape of a value. -/
def shape : Json → Shape
  | num _ => .number
  | str _ => .string
  | arr _ => .array
  | obj _ => .object

/-- The shape of the values that begin with a byte. -/
def Shape.ofByte? (b : UInt8) : Option Shape :=
  if b = 45 ∨ Text.isDecimal b = true then some number
  else if b = 34 then some string
  else if b = 91 then some array
  else if b = 123 then some object
  else none

/-- A number begins with a minus or a digit. -/
theorem exists_ofInt_eq_cons (n : Int) :
    ∃ b rest, Text.ofInt n = b :: rest ∧ (b = 45 ∨ Text.isDecimal b = true) := by
  cases n with
  | ofNat n =>
    obtain ⟨b, rest, hb⟩ := List.exists_cons_of_ne_nil (Text.ofNat_ne_nil n)
    exact ⟨b, rest, hb, .inr (Text.isDecimal_of_mem_ofNat (hb ▸ List.mem_cons_self))⟩
  | negSucc n => exact ⟨45, _, rfl, .inl rfl⟩

/-- **The first byte of a value shows its shape.** -/
theorem shape_writeCompact (j : Json) (u : Text) :
    (j.writeCompact u).head?.bind Shape.ofByte? = some j.shape := by
  cases j with
  | num n =>
    obtain ⟨b, rest, hn, hb⟩ := exists_ofInt_eq_cons n
    rw [writeCompact, hn]
    exact if_pos hb
  | str t =>
    rw [writeCompact, quoted_append]
    rfl
  | arr items => rw [writeCompact]; rfl
  | obj fields => rw [writeCompact]; rfl

theorem shape_eq_of_writeCompact_eq {j j' : Json} {u v : Text}
    (h : j.writeCompact u = j'.writeCompact v) : j.shape = j'.shape := by
  have hbyte := congrArg (fun t : Text => t.head?.bind Shape.ofByte?) h
  rw [shape_writeCompact, shape_writeCompact] at hbyte
  exact Option.some.inj hbyte

/-- No value begins with a byte that stands for no shape. -/
theorem writeCompact_ne_cons {b : UInt8} (hb : Shape.ofByte? b = none) (j : Json) (u v : Text) :
    j.writeCompact u ≠ b :: v := by
  intro h
  have hshape := shape_writeCompact j u
  rw [h, List.head?_cons, Option.bind_some, hb] at hshape
  cases hshape

/-! ## Values in front of a text -/

mutual

/-- All strings in a value, the keys of objects included. -/
def texts : Json → List Text
  | num _ => []
  | str t => [t]
  | arr items => textsOfItems items
  | obj fields => textsOfFields fields

/-- All strings in some items. -/
def textsOfItems : List Json → List Text
  | [] => []
  | j :: js => j.texts ++ textsOfItems js

/-- All strings in some fields. -/
def textsOfFields : List (Text × Json) → List Text
  | [] => []
  | (k, j) :: fs => k :: (j.texts ++ textsOfFields fs)

end

/-- Whether all strings in a value are well formed. -/
def IsUtf8 (j : Json) : Prop := ∀ t ∈ j.texts, t.isUtf8 = true

theorem isUtf8_str_iff {t : Text} : (str t).IsUtf8 ↔ t.isUtf8 = true := by
  unfold IsUtf8
  rw [texts, List.forall_mem_singleton]

theorem isUtf8_arr_iff {items : List Json} : (arr items).IsUtf8 ↔ ∀ j ∈ items, j.IsUtf8 := by
  unfold IsUtf8
  rw [texts]
  induction items with
  | nil => simp [textsOfItems]
  | cons j js ih => rw [textsOfItems, List.forall_mem_append, ih, List.forall_mem_cons]

theorem isUtf8_obj_iff {fields : List (Text × Json)} :
    (obj fields).IsUtf8 ↔ ∀ f ∈ fields, f.1.isUtf8 = true ∧ f.2.IsUtf8 := by
  unfold IsUtf8
  rw [texts]
  induction fields with
  | nil => simp [textsOfFields]
  | cons f fs ih =>
    rw [textsOfFields, List.forall_mem_cons, List.forall_mem_append, ih, List.forall_mem_cons,
      and_assoc]

/-- What follows an item or a field: the closing bracket if it is the last one, else a comma and
those that are left. -/
def followed (last : Bool) (close : UInt8) (more u : Text) : Text :=
  if last then close :: u else 44 :: more

theorem delimits_followed {close : UInt8} (hclose : Text.isDecimal close = false) (last : Bool)
    (more u : Text) : (followed last close more u).Delimits := by
  rintro b hb
  cases last with
  | false =>
    obtain rfl := Option.some.inj hb
    rfl
  | true =>
    obtain rfl := Option.some.inj hb
    exact hclose

/-- A comma or a closing bracket shows whether there are more. -/
theorem followed_inj {last last' : Bool} {close : UInt8} (hclose : close ≠ 44)
    {more more' u v : Text}
    (h : followed last close more u = followed last' close more' v) :
    (last = true ∧ last' = true ∧ u = v) ∨ (last = false ∧ last' = false ∧ more = more') := by
  cases last <;> cases last'
  · exact .inr ⟨rfl, rfl, (List.cons.inj h).2⟩
  · exact absurd (List.cons.inj h).1.symm hclose
  · exact absurd (List.cons.inj h).1 hclose
  · exact .inl ⟨rfl, rfl, (List.cons.inj h).2⟩

theorem writeItems_cons (j : Json) (js : List Json) (u : Text) :
    writeItems (j :: js) (93 :: u)
      = j.writeCompact (followed js.isEmpty 93 (writeItems js (93 :: u)) u) := by
  rw [writeItems]
  rfl

theorem writeFields_cons (k : Text) (j : Json) (fs : List (Text × Json)) (u : Text) :
    writeFields ((k, j) :: fs) (125 :: u) = quoted k
      ++ 58 :: j.writeCompact (followed fs.isEmpty 125 (writeFields fs (125 :: u)) u) := by
  rw [writeFields, List.append_assoc]
  rfl

mutual

/-- **A value in front of a text shows the value and the text**, where the text does not go on
with a digit. -/
theorem writeCompact_inj (j j' : Json) {u v : Text} (hj : j.IsUtf8) (hj' : j'.IsUtf8)
    (hu : u.Delimits) (hv : v.Delimits) (h : j.writeCompact u = j'.writeCompact v) :
    j = j' ∧ u = v := by
  have hshape := shape_eq_of_writeCompact_eq h
  cases j with
  | num n =>
    cases j' with
    | num m =>
      rw [writeCompact, writeCompact] at h
      obtain ⟨rfl, huv⟩ := Text.ofInt_append_inj hu hv h
      exact ⟨rfl, huv⟩
    | _ => cases hshape
  | str t =>
    cases j' with
    | str t' =>
      rw [writeCompact, writeCompact] at h
      obtain ⟨rfl, huv⟩ := quoted_append_inj (isUtf8_str_iff.mp hj) (isUtf8_str_iff.mp hj') h
      exact ⟨rfl, huv⟩
    | _ => cases hshape
  | arr items =>
    cases j' with
    | arr items' =>
      rw [writeCompact, writeCompact] at h
      obtain ⟨rfl, huv⟩ := writeItems_inj items items' (isUtf8_arr_iff.mp hj)
        (isUtf8_arr_iff.mp hj') (List.cons.inj h).2
      exact ⟨rfl, huv⟩
    | _ => cases hshape
  | obj fields =>
    cases j' with
    | obj fields' =>
      rw [writeCompact, writeCompact] at h
      obtain ⟨rfl, huv⟩ := writeFields_inj fields fields' (isUtf8_obj_iff.mp hj)
        (isUtf8_obj_iff.mp hj') (List.cons.inj h).2
      exact ⟨rfl, huv⟩
    | _ => cases hshape

/-- The same for items in front of their closing bracket. -/
theorem writeItems_inj (js js' : List Json) {u v : Text} (hjs : ∀ j ∈ js, j.IsUtf8)
    (hjs' : ∀ j ∈ js', j.IsUtf8) (h : writeItems js (93 :: u) = writeItems js' (93 :: v)) :
    js = js' ∧ u = v := by
  cases js with
  | nil =>
    cases js' with
    | nil =>
      rw [writeItems, writeItems] at h
      exact ⟨rfl, (List.cons.inj h).2⟩
    | cons j' js' =>
      rw [writeItems, writeItems_cons] at h
      exact absurd h.symm (writeCompact_ne_cons rfl j' _ u)
  | cons j js =>
    cases js' with
    | nil =>
      rw [writeItems_cons, writeItems] at h
      exact absurd h (writeCompact_ne_cons rfl j _ v)
    | cons j' js' =>
      obtain ⟨hj, htail⟩ := List.forall_mem_cons.mp hjs
      obtain ⟨hj', htail'⟩ := List.forall_mem_cons.mp hjs'
      rw [writeItems_cons, writeItems_cons] at h
      obtain ⟨rfl, hmore⟩ := writeCompact_inj j j' hj hj' (delimits_followed rfl _ _ _)
        (delimits_followed rfl _ _ _) h
      obtain ⟨hlast, hlast', huv⟩ | ⟨-, -, hrest⟩ := followed_inj (by decide) hmore
      · rw [List.isEmpty_iff.mp hlast, List.isEmpty_iff.mp hlast']
        exact ⟨rfl, huv⟩
      · obtain ⟨rfl, huv⟩ := writeItems_inj js js' htail htail' hrest
        exact ⟨rfl, huv⟩

/-- The same for fields in front of their closing brace. -/
theorem writeFields_inj (fs fs' : List (Text × Json)) {u v : Text}
    (hfs : ∀ f ∈ fs, f.1.isUtf8 = true ∧ f.2.IsUtf8)
    (hfs' : ∀ f ∈ fs', f.1.isUtf8 = true ∧ f.2.IsUtf8)
    (h : writeFields fs (125 :: u) = writeFields fs' (125 :: v)) : fs = fs' ∧ u = v := by
  cases fs with
  | nil =>
    cases fs' with
    | nil =>
      rw [writeFields, writeFields] at h
      exact ⟨rfl, (List.cons.inj h).2⟩
    | cons f' fs' =>
      rw [writeFields, writeFields_cons, quoted_append] at h
      exact absurd (List.cons.inj h).1 (by decide)
  | cons f fs =>
    cases fs' with
    | nil =>
      rw [writeFields_cons, writeFields, quoted_append] at h
      exact absurd (List.cons.inj h).1 (by decide)
    | cons f' fs' =>
      obtain ⟨k, j⟩ := f
      obtain ⟨k', j'⟩ := f'
      obtain ⟨⟨hk, hj⟩, htail⟩ := List.forall_mem_cons.mp hfs
      obtain ⟨⟨hk', hj'⟩, htail'⟩ := List.forall_mem_cons.mp hfs'
      rw [writeFields_cons, writeFields_cons] at h
      obtain ⟨rfl, hvalue⟩ := quoted_append_inj hk hk' h
      obtain ⟨rfl, hmore⟩ := writeCompact_inj j j' hj hj' (delimits_followed rfl _ _ _)
        (delimits_followed rfl _ _ _) (List.cons.inj hvalue).2
      obtain ⟨hlast, hlast', huv⟩ | ⟨-, -, hrest⟩ := followed_inj (by decide) hmore
      · rw [List.isEmpty_iff.mp hlast, List.isEmpty_iff.mp hlast']
        exact ⟨rfl, huv⟩
      · obtain ⟨rfl, huv⟩ := writeFields_inj fs fs' htail htail' hrest
        exact ⟨rfl, huv⟩

end

/-! ## The compact form -/

/-- Items are nested as deep as the deepest of them. -/
theorem depthOfItems_le_iff {js : List Json} {k : Nat} :
    depthOfItems js ≤ k ↔ ∀ j ∈ js, j.depth ≤ k := by
  induction js with
  | nil => simp [depthOfItems]
  | cons j js ih => rw [depthOfItems, Nat.max_le, ih, List.forall_mem_cons]

/-- **The compact form shows which value it is.** -/
theorem compact_inj {j j' : Json} (hj : j.IsUtf8) (hj' : j'.IsUtf8)
    (h : j.compact = j'.compact) : j = j' := by
  have hend : Text.Delimits [] := fun b hb => absurd hb (by simp)
  exact (writeCompact_inj j j' hj hj' hend hend h).1

/-- A value is handed on in a form just if it is not nested too deep. -/
theorem handOn_eq_ok_iff {form : Json → Text} {j : Json} {t : Text} :
    j.handOn form = .ok t ↔ j.depth ≤ maxDepth ∧ form j = t := by
  unfold handOn
  split
  · next hdepth => rw [Except.ok.injEq, and_iff_right hdepth]
  · next hdepth => exact iff_of_false (fun h => nomatch h) fun h => hdepth h.1

end Json

end Arbor
