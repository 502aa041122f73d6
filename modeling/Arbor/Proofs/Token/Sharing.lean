import Arbor.Proofs.Token.Termination

/-!
# Sharing the cache between kinds

The token productions tried at one place share a cache. What is kept there for a name was found
while other productions were opened, and a production that is opened matches nothing. So an
entry can be short of what the name leads to on its own, and the next kind gets to read it.

`Munch.afresh` is the matcher without a cache. A run does the same, whatever entries it starts
from, as long as these are what their names lead to with nothing in the way (`Munch.Settled`).
New entries are such ones again if left recursion is **direct**: no two productions refer
leftmost to each other (`Grammar.LeftRecursionDirect`). An opened production that would be in
the way of a name has come to that name, and so it would be the name itself.

Then each kind takes what it takes with an empty cache, and the choice between them is the same
(`Tokenizer.next_chooses_alone`). Without this it is not: of two token productions that refer
leftmost to each other, the second one loses what it takes alone
(`Tokenizer.next_ne_chosen_alone`).
-/

namespace Arbor

namespace Munch

variable {t : Text} {g : Grammar}

/-! ## The matcher without a cache -/

/-- Where one item after another leads, given where the first leads, where the second leads
from here, and where it leads from further right. -/
def inTurn (r : Rest t) (first here : Option (Rest t))
    (there : (s : Rest t) → s.left < r.left → Option (Rest t)) : Option (Rest t) := do
  let s ← first
  if hlt : s.left < r.left then there s hlt else here

/-- **Where a task leads with nothing known**, if it does not fail: every name is followed
afresh, unless it is opened. -/
def afresh (g : Grammar) (opened : Grammar.Opened) (r : Rest t) : Task → Option (Rest t)
  | .expr .empty => some r
  | .expr (.literal v) => some (r.drop (literalLength v r.bytes))
  | .expr (.range lo hi) => some (r.drop (rangeLength lo hi r.bytes))
  | .expr (.group e) => afresh g opened r (.expr e)
  | .expr (.option e) => afresh g opened r (.expr e)
  | .expr (.repetition e) => afresh g opened r (.many e)
  | .expr (.alt e f) => do
    let a ← afresh g opened r (.expr e)
    let b ← afresh g opened r (.expr f)
    return if b.left < a.left then b else a
  | .expr (.seq e f) =>
    some ((inTurn r (afresh g opened r (.item e)) (afresh g opened r (.item f))
      fun s _ => afresh g ∅ s (.item f)).getD r)
  | .expr (.name _ n) =>
    if ho : n ∈ opened then some r
    else match hp : g.get? n with
      | none => some r
      | some p =>
        have := Grammar.unopened_insert_lt (Grammar.mem_names_of_get? hp) ho
        afresh g (opened.insert n) r (.expr p.body)
  | .item (.seq e f) =>
    inTurn r (afresh g opened r (.item e)) (afresh g opened r (.item f))
      fun s _ => afresh g ∅ s (.item f)
  | .item e => do
    let s ← afresh g opened r (.expr e)
    if s.left < r.left ∨ g.nullable e then some s else none
  | .many e => do
    let s ← afresh g opened r (.expr e)
    if s.left < r.left then afresh g ∅ s (.many e) else some s
termination_by task => (r.left, g.unopened opened, Recursion.weight task)
decreasing_by
  · exact .right _ (.right _ (by simp +arith [Recursion.weight, Expr.size]))
  · exact .right _ (.right _ (by simp +arith [Recursion.weight, Expr.size]))
  · exact .right _ (.right _ (by simp +arith [Recursion.weight, Expr.size]))
  · exact .right _ (.right _ (by simp +arith [Recursion.weight, Expr.size]))
  · exact .right _ (.right _ (by simp +arith [Recursion.weight, Expr.size]))
  · exact .right _ (.right _ (by simp +arith [Recursion.weight, Expr.size]))
  · exact .right _ (.right _ (by simp +arith [Recursion.weight, Expr.size]))
  · exact .left _ _ ‹_›
  · exact .right _ (.left _ _ this)
  · exact .right _ (.right _ (by simp +arith [Recursion.weight, Expr.size]))
  · exact .right _ (.right _ (by simp +arith [Recursion.weight, Expr.size]))
  · exact .left _ _ ‹_›
  · exact .right _ (.right _ (Nat.lt_succ_self _))
  · exact .right _ (.right _ (Nat.lt_succ_self _))
  · exact .left _ _ ‹_›

/-! ## What a run leaves alone -/

variable {opened : Grammar.Opened} {r s : Rest t} {task : Task} {c c' : PlaceCache t}
  {o : Option (Rest t)}

/-- An item that leads nowhere matches the empty text. -/
theorem Run.matches_nil {e : Expr} (h : Run g opened r (.item e) c (some s) c')
    (hs : s.left = r.left) : Matches g e [] := by
  induction e generalizing r s opened c c' with
  | seq e f ihe ihf =>
    cases h with
    | item he => exact absurd rfl (he e f)
    | bothHere h₁ h₂ => exact .seq (ihe h₁ rfl) (ihf h₂ hs)
    | bothThere hlt _ h₂ => exact absurd (hs ▸ h₂.left_le s rfl) (Nat.not_le.mpr hlt)
  | _ =>
    cases h with
    | item _ hn => exact Grammar.matches_nil_of_nullable (hn hs)

/-- **A run keeps nothing further left**, and nothing here for what is opened. -/
theorem Run.get?_eq (h : Run g opened r task c o c') {n : Text} {left : Nat}
    (hk : r.left < left ∨ left = r.left ∧ n ∈ opened) :
    c'.get? (n, left) = c.get? (n, left) := by
  induction h with
  | empty | literal | range | hit | guard | undefined => rfl
  | group _ ih | option _ ih | repetition _ ih | seq _ ih | item _ _ _ ih | itemFail _ _ _ ih
    | bothFirst _ ih | manyLast _ ih => exact ih hk
  | alt _ _ ih₁ ih₂ | bothHere _ _ ih₁ ih₂ => exact (ih₂ hk).trans (ih₁ hk)
  | @enter _ r _ m _ _ _ _ _ ho _ _ _ ih =>
    rw [Std.DHashMap.get?_insert, dif_neg]
    · exact ih (hk.imp_right fun h => ⟨h.1, Std.TreeSet.mem_insert.mpr (.inr h.2)⟩)
    · -- the entry is for a place here and a name that was not opened
      intro hkey
      obtain ⟨rfl, rfl⟩ := Prod.mk.inj (eq_of_beq hkey)
      exact hk.elim (Nat.lt_irrefl _) fun h => ho h.2
  | bothThere hlt _ _ ih₁ ih₂ | manyMore hlt _ _ ih₁ ih₂ =>
    have hfar := hk.elim (Nat.lt_trans hlt) fun h => h.1 ▸ hlt
    exact (ih₂ (.inl hfar)).trans (ih₁ hk)

/-- Nothing is known of what is opened, before a run and after it. -/
theorem Run.unknown (h : Run g opened r task c o c')
    (hu : ∀ n ∈ opened, c.get? (n, r.left) = none) : ∀ n ∈ opened, c'.get? (n, r.left) = none :=
  fun n hn => (h.get?_eq (.inr ⟨rfl, hn⟩)).trans (hu n hn)

end Munch

/-! ## Direct left recursion -/

/-- **Whether a name is followed in matching tokens**: it is the name of a token production, or
the production of such a name refers to it. -/
inductive Grammar.Lexical (g : Grammar) : Text → Prop
  | token {p} (hp : p ∈ g.tokenProductions) : Lexical g p.name
  | referred {a p} {b : Mark × Text} (ha : Lexical g a) (hp : g.get? a = some p)
      (hb : b ∈ p.body.references) : Lexical g b.2

/-- **Whether left recursion is direct** in matching tokens: of two productions that refer
leftmost to each other, perhaps through others, the one is the other. -/
def Grammar.LeftRecursionDirect (g : Grammar) : Prop :=
  ∀ a b, g.Lexical a → Relation.TransGen (Scan.LeftRefers g) a b →
    Relation.TransGen (Scan.LeftRefers g) b a → a = b

namespace Scan

variable {g : Grammar} {opened opened' : Grammar.Opened} {e f : Expr} {n : Text} {mark : Mark}
  {p : Production}

/-- Whether no production that a name comes to leftmost is opened, itself included. -/
def Clear (g : Grammar) (opened : Grammar.Opened) (n : Text) : Prop :=
  ∀ b, Relation.ReflTransGen (LeftRefers g) n b → b ∉ opened

/-- **With direct left recursion nothing is in the way** of a name that is not opened: what
were in its way has come to it. -/
theorem Guarded.clear (hg : g.LeftRecursionDirect) (h : Guarded g opened (.name mark n))
    (hn : g.Lexical n) (ho : n ∉ opened) : Clear g opened n := by
  intro b hnb hb
  have hbn := h b hb n .name
  rcases Relation.reflTransGen_iff_eq_or_transGen.mp hnb with rfl | hnb
  · exact ho hb
  · obtain rfl := hg n b hn hnb hbn
    exact ho hb

/-- Whether the same productions are opened, among those that an expression comes to
leftmost. -/
def Alike (g : Grammar) (opened opened' : Grammar.Opened) (e : Expr) : Prop :=
  ∀ n, Leads g e n → ∀ b, Relation.ReflTransGen (LeftRefers g) n b → (b ∈ opened ↔ b ∈ opened')

theorem Alike.refl : Alike g opened opened e := fun _ _ _ _ => .rfl

theorem Alike.imp (h : Alike g opened opened' e) (himp : ∀ b, Leads g f b → Leads g e b) :
    Alike g opened opened' f :=
  fun n hn => h n (himp n hn)

theorem Alike.body (h : Alike g opened opened' (.name mark n)) (hp : g.get? n = some p) :
    Alike g (opened.insert n) (opened'.insert n) p.body := by
  intro m hm b hb
  rw [Std.TreeSet.mem_insert, Std.TreeSet.mem_insert, h n .name b (.head ⟨p, hp, hm⟩ hb)]

theorem Clear.alike (h : Clear g opened n) (h' : Clear g opened' n) :
    Alike g opened opened' (.name mark n) := by
  rintro _ ⟨⟩ b hb
  exact iff_of_false (h b hb) (h' b hb)

end Scan

namespace Munch

open Scan (Guarded Alike Clear)

variable {t : Text} {g : Grammar} {opened : Grammar.Opened} {r s : Rest t} {task : Task}
  {c c' : PlaceCache t} {o : Option (Rest t)}

/-- Whether what the cache has for a name is what the name leads to with nothing in its
way. -/
def Settled (g : Grammar) (n : Text) (r s : Rest t) : Prop :=
  ∀ opened mark, Clear g opened n → afresh g opened r (.expr (.name mark n)) = some s

theorem inTurn_here {there : (s : Rest t) → s.left < r.left → Option (Rest t)} :
    inTurn r (some r) o there = o :=
  dif_neg (Nat.lt_irrefl _)

theorem inTurn_there {here : Option (Rest t)}
    {there : (s : Rest t) → s.left < r.left → Option (Rest t)} (hlt : s.left < r.left) :
    inTurn r (some s) here there = there s hlt :=
  dif_pos hlt

theorem afresh_name {mark : Mark} {n : Text} {p : Production} (ho : n ∉ opened)
    (hp : g.get? n = some p) : afresh g opened r (.expr (.name mark n))
      = afresh g (opened.insert n) r (.expr p.body) := by
  rw [afresh, dif_neg ho]
  split
  · next hq => rw [hp] at hq; cases hq
  · next q hq => rw [Option.some.inj (hp.symm.trans hq)]

/-- **A run goes as if nothing were known**, and what it keeps is settled again, if left
recursion is direct. -/
theorem Run.afresh_eq (hg : g.LeftRecursionDirect) (h : Run g opened r task c o c')
    (hl : ∀ a ∈ task.subject.references, g.Lexical a.2) (ho : Guarded g opened task.subject)
    (hu : ∀ n ∈ opened, c.get? (n, r.left) = none) (hc : c.Entries (Settled g)) :
    c'.Entries (Settled g)
      ∧ ∀ opened', Alike g opened opened' task.subject → afresh g opened' r task = o := by
  induction h with
  | empty | literal | range =>
    refine ⟨hc, fun _ _ => ?_⟩
    rw [afresh]
  | group _ ih =>
    obtain ⟨hc', heq⟩ := ih hl (ho.imp fun _ => .group) hu hc
    refine ⟨hc', fun _ ha => ?_⟩
    rw [afresh]
    exact heq _ (ha.imp fun _ => .group)
  | option _ ih =>
    obtain ⟨hc', heq⟩ := ih hl (ho.imp fun _ => .option) hu hc
    refine ⟨hc', fun _ ha => ?_⟩
    rw [afresh]
    exact heq _ (ha.imp fun _ => .option)
  | repetition _ ih =>
    obtain ⟨hc', heq⟩ := ih hl (ho.imp fun _ => .repetition) hu hc
    refine ⟨hc', fun _ ha => ?_⟩
    rw [afresh]
    exact heq _ (ha.imp fun _ => .repetition)
  | alt h₁ _ ih₁ ih₂ =>
    obtain ⟨hle, hlf⟩ := List.forall_mem_append.mp hl
    obtain ⟨hc₁, heq₁⟩ := ih₁ hle (ho.imp fun _ => .altLeft) hu hc
    obtain ⟨hc₂, heq₂⟩ := ih₂ hlf (ho.imp fun _ => .altRight) (h₁.unknown hu) hc₁
    refine ⟨hc₂, fun _ ha => ?_⟩
    rw [afresh, heq₁ _ (ha.imp fun _ => .altLeft), heq₂ _ (ha.imp fun _ => .altRight)]
    rfl
  | seq _ ih =>
    obtain ⟨hc', heq⟩ := ih hl ho hu hc
    refine ⟨hc', fun _ ha => ?_⟩
    rw [← heq _ ha, afresh, afresh]
  | @hit opened r mark n c s hs =>
    -- what is known here is not opened
    have hn : n ∉ opened := fun hn => by rw [hu n hn] at hs; cases hs
    have hclear := ho.clear hg (hl _ List.mem_cons_self) hn
    refine ⟨hc, fun _ ha => hc n r s hs _ _ fun b hb => ?_⟩
    rw [← ha n .name b hb]
    exact hclear b hb
  | guard _ hn =>
    refine ⟨hc, fun _ ha => ?_⟩
    rw [afresh, dif_pos ((ha _ .name _ .refl).mp hn)]
  | undefined _ hn hp =>
    refine ⟨hc, fun _ ha => ?_⟩
    rw [afresh, dif_neg (mt (ha _ .name _ .refl).mpr hn)]
    split
    · rfl
    · next hq => rw [hp] at hq; cases hq
  | @enter opened r mark n c p s c' hs hn hp hle h ih =>
    have hlex : g.Lexical n := hl _ List.mem_cons_self
    have hu' : ∀ m ∈ opened.insert n, c.get? (m, r.left) = none := by
      intro m hm
      rcases Grammar.mem_insert_opened.mp hm with rfl | hm
      · exact hs
      · exact hu m hm
    obtain ⟨hc', heq⟩ := ih (fun _ ha => .referred hlex hp ha) (ho.body hp) hu' hc
    have hname : ∀ opened' mark, Alike g opened opened' (.name mark n) →
        afresh g opened' r (.expr (.name mark n)) = some s := by
      intro opened' mark ha
      rw [afresh_name (mt (ha n .name n .refl).mpr hn) hp]
      exact heq _ (ha.body hp)
    refine ⟨hc'.insert hle fun opened' mark hclear => ?_, fun _ ha => hname _ _ ha⟩
    exact hname _ _ ((ho.clear hg hlex hn).alike hclear)
  | @item _ r e _ s _ he hnull h ih =>
    obtain ⟨hc', heq⟩ := ih hl ho hu hc
    refine ⟨hc', fun _ ha => ?_⟩
    have hfit : s.left < r.left ∨ g.nullable e = true :=
      (Nat.lt_or_eq_of_le (h.left_le s rfl)).imp_right hnull
    rw [afresh, heq _ ha]
    · exact if_pos hfit
    · exact he
  | @itemFail _ r e _ _ he hnull _ ih =>
    obtain ⟨hc', heq⟩ := ih hl ho hu hc
    refine ⟨hc', fun _ ha => ?_⟩
    rw [afresh, heq _ ha]
    · exact if_neg (by simp [hnull])
    · exact he
  | bothFirst _ ih =>
    obtain ⟨hc', heq⟩ := ih (List.forall_mem_append.mp hl).1 (ho.imp fun _ => .seqLeft) hu hc
    refine ⟨hc', fun _ ha => ?_⟩
    rw [afresh, heq _ (ha.imp fun _ => .seqLeft)]
    rfl
  | bothHere h₁ _ ih₁ ih₂ =>
    obtain ⟨hle, hlf⟩ := List.forall_mem_append.mp hl
    have hnil := h₁.matches_nil rfl
    obtain ⟨hc₁, heq₁⟩ := ih₁ hle (ho.imp fun _ => .seqLeft) hu hc
    obtain ⟨hc₂, heq₂⟩ := ih₂ hlf (ho.imp fun _ => .seqRight hnil) (h₁.unknown hu) hc₁
    refine ⟨hc₂, fun _ ha => ?_⟩
    rw [afresh, heq₁ _ (ha.imp fun _ => .seqLeft), inTurn_here,
      heq₂ _ (ha.imp fun _ => .seqRight hnil)]
  | bothThere hlt h₁ _ ih₁ ih₂ =>
    obtain ⟨hle, hlf⟩ := List.forall_mem_append.mp hl
    obtain ⟨hc₁, heq₁⟩ := ih₁ hle (ho.imp fun _ => .seqLeft) hu hc
    -- the first item took a byte, so nothing is open in the second
    obtain ⟨hc₂, heq₂⟩ := ih₂ hlf Scan.guarded_empty
      (fun _ hn => absurd hn Std.TreeSet.not_mem_emptyc) hc₁
    refine ⟨hc₂, fun _ ha => ?_⟩
    rw [afresh, heq₁ _ (ha.imp fun _ => .seqLeft), inTurn_there hlt, heq₂ _ .refl]
  | manyLast _ ih =>
    obtain ⟨hc', heq⟩ := ih hl ho hu hc
    refine ⟨hc', fun _ ha => ?_⟩
    rw [afresh, heq _ ha]
    exact if_neg (Nat.lt_irrefl _)
  | manyMore hlt _ _ ih₁ ih₂ =>
    obtain ⟨hc₁, heq₁⟩ := ih₁ hl ho hu hc
    obtain ⟨hc₂, heq₂⟩ := ih₂ hl Scan.guarded_empty
      (fun _ hn => absurd hn Std.TreeSet.not_mem_emptyc) hc₁
    refine ⟨hc₂, fun _ ha => ?_⟩
    rw [afresh, heq₁ _ ha]
    exact (if_pos hlt).trans (heq₂ _ .refl)

end Munch

/-! ## The choice -/

/-- **How many bytes a production takes alone** at a place, with an empty cache. -/
def Grammar.TakesAlone (g : Grammar) {t : Text} (r : Rest t) (p : Production) (n : Nat) : Prop :=
  (Munch.expr g ∅ r p.body ∅).1.length = n

/-- Every production that is tried takes what it takes alone, so the longest match is the first
of the longest of these. -/
theorem Grammar.isFirstOf_longest_alone {g : Grammar} (hg : g.LeftRecursionDirect) {t : Text}
    (r : Rest t) : (g.longest r).IsFirstOf (g.TakesAlone r) g.tokenProductions := by
  refine isFirstOf_longest (P := fun c => c.Entries (Munch.Settled g)) PlaceCache.entries_empty ?_
  intro p hp c s c' hc hrun
  have hlexical : ∀ a ∈ p.body.references, g.Lexical a.2 := fun _ ha =>
    .referred (.token hp) (get?_of_mem (List.mem_filter.mp hp).1) ha
  have hnone : ∀ {c : PlaceCache t}, ∀ n ∈ (∅ : Opened), c.get? (n, r.left) = none := fun _ hn =>
    absurd hn Std.TreeSet.not_mem_emptyc
  obtain ⟨hc', heq⟩ := hrun.afresh_eq hg hlexical Scan.guarded_empty hnone hc
  obtain ⟨-, halone⟩ := (Munch.run_expr g ∅ r p.body ∅).afresh_eq hg hlexical Scan.guarded_empty
    hnone PlaceCache.entries_empty
  have hs : (Munch.expr g ∅ r p.body ∅).1.val = s :=
    Option.some.inj ((halone ∅ .refl).symm.trans (heq ∅ .refl))
  have hlength : (Munch.expr g ∅ r p.body ∅).1.length = r.left - s.left := by
    rw [Rest.Reached.length, hs]
  exact ⟨hc', fun k hk => hk.symm.trans hlength, fun _ => hlength⟩

/-! ## Samples -/

namespace Munch.Run

variable {g : Grammar} {t : Text} {opened : Grammar.Opened} {r a b : Rest t} {e f : Expr}
  {c c₁ c₂ : PlaceCache t} {v : Text}

/-- A literal that does not stand here leads nowhere. -/
theorem missing (h : literalLength v r.bytes = 0) :
    Run g opened r (.expr (.literal v)) c (some r) c := by
  have hrun : Run g opened r (.expr (.literal v)) c (some (r.drop (literalLength v r.bytes))) c :=
    .literal
  rwa [h, Rest.ext_left (r.left_drop 0)] at hrun

theorem altFirst (h₁ : Run g opened r (.expr e) c (some a) c₁)
    (h₂ : Run g opened r (.expr f) c₁ (some b) c₂) (hle : a.left ≤ b.left) :
    Run g opened r (.expr (.alt e f)) c (some a) c₂ := by
  have hrun := h₁.alt h₂
  rwa [if_neg (Nat.not_lt.mpr hle)] at hrun

theorem altSecond (h₁ : Run g opened r (.expr e) c (some a) c₁)
    (h₂ : Run g opened r (.expr f) c₁ (some b) c₂) (hlt : b.left < a.left) :
    Run g opened r (.expr (.alt e f)) c (some b) c₂ := by
  have hrun := h₁.alt h₂
  rwa [if_pos hlt] at hrun

end Munch.Run

namespace Sample

/-- A name is not nullable if a literal stands in each alternative of its production. -/
theorem not_nullable {g : Grammar} {n after other : Text} {p : Production} {first : Expr}
    {mark : Mark} (hp : g.get? n = some p)
    (hbody : p.body = .alt (.seq first (.literal after)) (.literal other))
    (hne : after ≠ [] ∧ other ≠ []) : g.nullable (.name mark n) = false := by
  refine Bool.eq_false_iff.mpr fun h => ?_
  obtain ⟨-, q, hq, hnull⟩ := Grammar.nullableFrom_name_iff.mp h
  obtain rfl := Option.some.inj (hp.symm.trans hq)
  rw [hbody] at hnull
  simp [hne.1, hne.2] at hnull

/-- The token `Closed = List ";" .`, over a token that is left recursive. -/
def closed : Production :=
  ⟨utf8 "Closed", ⟨[], 2, 1⟩, .seq (.name ⟨[], 2, 10⟩ (utf8 "List")) (.literal (utf8 ";"))⟩

def closures : Grammar := .ofProductions [chain, closed]

theorem get?_closures (n : Text) : closures.get? n = [chain, closed].find? (·.name = n) :=
  Grammar.get?_ofProductions _ n

theorem leftRecursive_closures : Scan.LeftRecursive closures :=
  ⟨utf8 "List", .single ⟨chain, get?_closures _, .altLeft (.seqLeft .name)⟩⟩

/-- All references lead to the one production. -/
theorem leftRecursionDirect_closures : closures.LeftRecursionDirect := by
  have hlist : ∀ a b, Scan.LeftRefers closures a b → b = utf8 "List" := by
    rintro a b ⟨p, hp, hb⟩
    have hm := (Grammar.mem_of_get?_ofProductions hp).1
    simp only [List.mem_cons, List.not_mem_nil, or_false] at hm
    rcases hm with rfl | rfl
    · cases hb with
      | altLeft hb =>
        cases hb with
        | seqLeft hb =>
          cases hb
          rfl
        | seqRight _ hb => cases hb
      | altRight hb => cases hb
    · cases hb with
      | seqLeft hb =>
        cases hb
        rfl
      | seqRight _ hb => cases hb
  intro a b _ hab hba
  obtain ⟨_, -, hb⟩ := Relation.TransGen.tail'_iff.mp hab
  obtain ⟨_, -, ha⟩ := Relation.TransGen.tail'_iff.mp hba
  rw [hlist _ _ ha, hlist _ _ hb]


open Munch (Run)

/-- The list takes one byte where it is opened itself, whether the rest is a list or not. -/
theorem run_closures_list {mark : Mark} :
    Run closures ∅ (.start (utf8 "a;")) (.expr (.name mark (utf8 "List"))) ∅
      (some ((Rest.start _).drop 1))
      ((∅ : PlaceCache _).insert (utf8 "List", 2) ⟨(Rest.start _).drop 1, by decide⟩) := by
  refine .enter (Std.DHashMap.get?_empty ..) Std.TreeSet.not_mem_emptyc (get?_closures _)
    (by decide) ?_
  have hself : Run closures ((∅ : Grammar.Opened).insert (utf8 "List")) (.start (utf8 "a;"))
      (.expr (.name ⟨[], 1, 8⟩ (utf8 "List"))) ∅ (some (.start _)) ∅ :=
    .guard (Std.DHashMap.get?_empty ..) Std.TreeSet.mem_insert_self
  have hfail := hself.itemFail (by simp) (not_nullable (get?_closures _) rfl (by decide))
  exact .altSecond (.seq (.bothFirst hfail)) .literal (by decide)

theorem takesAlone_closed : closures.TakesAlone (.start (utf8 "a;")) closed 2 := by
  have hrun : Run closures ∅ (.start (utf8 "a;")) (.expr closed.body) ∅
      (some (((Rest.start _).drop 1).drop 1)) _ :=
    .seq (o := some _) (.bothThere (by decide)
      (.item (by simp) (absurd · (by decide)) run_closures_list)
      (.item (by simp) (absurd · (by decide)) .literal))
  rw [Grammar.TakesAlone, Munch.expr_eq_of_run hrun]
  rfl

theorem takesAlone_chain : closures.TakesAlone (.start (utf8 "a;")) chain 1 := by
  have hrun : Run closures ∅ (.start (utf8 "a;")) (.expr chain.body) ∅
      (some ((Rest.start _).drop 1)) _ :=
    .altSecond (.seq (o := none) (.bothThere (by decide)
      (.item (by simp) (absurd · (by decide)) run_closures_list)
      (.itemFail (by simp) (by rw [Grammar.nullable, Grammar.nullableFrom_literal]; decide)
        (.missing (by decide))))) .literal (by decide)
  rw [Grammar.TakesAlone, Munch.expr_eq_of_run hrun]
  rfl

/-- The closed list takes all of the text, and the list one byte. -/
theorem chooses_closures :
    closures.Chooses (closures.TakesAlone (.start (utf8 "a;"))) (utf8 "Closed") 2 := by
  have htokens : closures.tokenProductions = [closed, chain] :=
    Grammar.tokenProductions_ofProductions _
  refine .winner (p := closed) ?_ (by decide) takesAlone_closed fun q hq k hk => ?_
  · rw [htokens]
    exact List.mem_cons_self
  · rw [htokens] at hq
    rcases List.mem_cons.mp hq with rfl | hq
    · exact .inr ⟨hk.symm.trans takesAlone_closed, List.le_refl _⟩
    · obtain rfl := List.mem_singleton.mp hq
      obtain rfl : k = 1 := hk.symm.trans takesAlone_chain
      exact .inl (by decide)

end Sample

namespace Tokenizer

/-- **Sharing the cache does not change the choice** where left recursion is direct: the next
token has the kind and the length of the token production that takes the most with an empty
cache, the first name of equals. -/
theorem next_chooses_alone {t : Text} {z : Tokenizer t} (hg : z.grammar.LeftRecursionDirect)
    (he : z.atEnd = false) (kind : Text) (n : Nat) :
    z.next.1.kind = kind ∧ z.next.1.literal.length = n
      ↔ z.grammar.Chooses (z.grammar.TakesAlone z.rest) kind n := by
  obtain ⟨hchoice, -⟩ := next_chooses he (Grammar.isFirstOf_longest_alone hg z.rest)
  constructor
  · rintro ⟨rfl, rfl⟩
    exact hchoice
  · exact hchoice.unique

/-- A list and its closed form, of which the second is tried first. -/
theorem next_chooses_alone_closures :
    Scan.LeftRecursive Sample.closures ∧ Sample.closures.LeftRecursionDirect
      ∧ (start Sample.closures (utf8 "a;")).atEnd = false
      ∧ (start Sample.closures (utf8 "a;")).next.1.kind = utf8 "Closed"
      ∧ (start Sample.closures (utf8 "a;")).next.1.literal.length = 2 :=
  ⟨Sample.leftRecursive_closures, Sample.leftRecursionDirect_closures, rfl,
    (next_chooses_alone Sample.leftRecursionDirect_closures rfl _ _).mpr Sample.chooses_closures⟩

end Tokenizer

/-! ## Where sharing tells

Two token productions that refer leftmost to each other. On the way of the first to itself the
second is cut short, and this is what is known of it when its turn comes. -/

namespace Sample

open Munch (Run)

/-- The token `A = B "x" | "y" .` -/
def former : Production :=
  ⟨utf8 "A", ⟨[], 1, 1⟩, .alt
    (.seq (.name ⟨[], 1, 5⟩ (utf8 "B")) (.literal (utf8 "x"))) (.literal (utf8 "y"))⟩

/-- The token `B = A "z" | "w" .` -/
def latter : Production :=
  ⟨utf8 "B", ⟨[], 2, 1⟩, .alt
    (.seq (.name ⟨[], 2, 5⟩ (utf8 "A")) (.literal (utf8 "z"))) (.literal (utf8 "w"))⟩

def crossing : Grammar := .ofProductions [former, latter]

theorem tokenProductions_crossing : crossing.tokenProductions = [former, latter] :=
  Grammar.tokenProductions_ofProductions _

theorem get?_crossing (n : Text) : crossing.get? n = [former, latter].find? (·.name = n) :=
  Grammar.get?_ofProductions _ n

/-- The place behind some bytes of `wxz`. -/
abbrev behind (n : Nat) : Rest (utf8 "wxz") := (Rest.start _).drop n

section Runs

variable {opened : Grammar.Opened} {c c' : PlaceCache (utf8 "wxz")}

/-- Without the first, the second is `w`. -/
theorem run_latter (h : Run crossing opened (behind 0) (.expr (.name ⟨[], 2, 5⟩ (utf8 "A"))) c
      (some (behind 0)) c') :
    Run crossing opened (behind 0) (.expr latter.body) c (some (behind 1)) c' := by
  have hfail := h.itemFail (by simp) (not_nullable (get?_crossing _) rfl (by decide))
  exact .altSecond (.seq (.bothFirst hfail)) .literal (by decide)

/-- With `w` as the second, the first is `wx`. -/
theorem run_former (h : Run crossing opened (behind 0) (.expr (.name ⟨[], 1, 5⟩ (utf8 "B"))) c
      (some (behind 1)) c') :
    Run crossing opened (behind 0) (.expr former.body) c (some (behind 2)) c' := by
  have hitem := h.item (by simp) (absurd · (by decide))
  have hx : Run crossing ∅ (behind 1) (.item (.literal (utf8 "x"))) c' (some (behind 2)) c' :=
    .item (by simp) (absurd · (by decide)) .literal
  exact .altFirst (.seq (o := some _) (hitem.bothThere (by decide) hx)) (.missing (by decide))
    (by decide)

end Runs

theorem ne_names : utf8 "A" ≠ utf8 "B" := by decide

/-- What is known when the first is done: on its way to itself it led nowhere, and this left the
second short. -/
def knownAfterFormer : PlaceCache (utf8 "wxz") :=
  ((∅ : PlaceCache _).insert (utf8 "A", 3) ⟨behind 0, by decide⟩).insert (utf8 "B", 3)
    ⟨behind 1, by decide⟩

theorem run_former_first :
    Run crossing ∅ (behind 0) (.expr former.body) ∅ (some (behind 2)) knownAfterFormer := by
  refine run_former (.enter (Std.DHashMap.get?_empty ..) Std.TreeSet.not_mem_emptyc
    (get?_crossing _) (by decide) (run_latter ?_))
  refine .enter (Std.DHashMap.get?_empty ..) (by simp [ne_names.symm]) (get?_crossing _)
    (by decide) ?_
  -- the second is opened
  have hlatter : Run crossing (((∅ : Grammar.Opened).insert (utf8 "B")).insert (utf8 "A"))
      (behind 0) (.expr (.name ⟨[], 1, 5⟩ (utf8 "B"))) ∅ (some (behind 0)) ∅ :=
    .guard (Std.DHashMap.get?_empty ..) (by simp)
  have hfail := hlatter.itemFail (by simp) (not_nullable (get?_crossing _) rfl (by decide))
  exact .altFirst (.seq (o := none) (.bothFirst hfail)) (.missing (by decide)) (by decide)

theorem run_latter_second : Run crossing ∅ (behind 0) (.expr latter.body) knownAfterFormer
    (some (behind 1)) knownAfterFormer := by
  refine run_latter (.hit (s := ⟨behind 0, by decide⟩) ?_)
  rw [knownAfterFormer, Std.DHashMap.get?_insert, dif_neg (by decide)]
  exact Std.DHashMap.get?_insert_self

theorem exists_run_latter_alone :
    ∃ c, Run crossing ∅ (behind 0) (.expr latter.body) ∅ (some (behind 3)) c := by
  have hlatter : Run crossing ((∅ : Grammar.Opened).insert (utf8 "A")) (behind 0)
      (.expr (.name ⟨[], 1, 5⟩ (utf8 "B"))) ∅ (some (behind 1)) _ :=
    .enter (Std.DHashMap.get?_empty ..) (by simp [ne_names]) (get?_crossing _) (by decide)
      (run_latter (.guard (Std.DHashMap.get?_empty ..) (by simp)))
  have hformer : Run crossing ∅ (behind 0) (.expr (.name ⟨[], 2, 5⟩ (utf8 "A"))) ∅
      (some (behind 2)) _ :=
    .enter (Std.DHashMap.get?_empty ..) Std.TreeSet.not_mem_emptyc (get?_crossing _) (by decide)
      (run_former hlatter)
  have hitem := hformer.item (by simp) (absurd · (by decide))
  have hz : ∀ c, Run crossing ∅ (behind 2) (.item (.literal (utf8 "z"))) c (some (behind 3)) c :=
    fun c => .item (by simp) (absurd · (by decide)) .literal
  exact ⟨_, .altFirst (.seq (o := some _) (hitem.bothThere (by decide) (hz _))) .literal
    (by decide)⟩

/-- The first takes all that it can, and the second does not come further. -/
theorem longest_crossing :
    crossing.longest (behind 0) = ⟨utf8 "A", ⟨behind 2, by decide⟩, knownAfterFormer⟩ := by
  have hfirst : crossing.improve (behind 0) ⟨Token.errorKind, (behind 0).here, ∅⟩ former
      = ⟨utf8 "A", ⟨behind 2, by decide⟩, knownAfterFormer⟩ := by
    rw [Grammar.improve, Munch.expr_eq_of_run run_former_first]
    exact if_pos (by decide)
  have hsecond : crossing.improve (behind 0) ⟨utf8 "A", ⟨behind 2, by decide⟩, knownAfterFormer⟩
      latter = ⟨utf8 "A", ⟨behind 2, by decide⟩, knownAfterFormer⟩ := by
    rw [Grammar.improve, Munch.expr_eq_of_run run_latter_second]
    exact if_neg (by decide)
  rw [Grammar.longest, tokenProductions_crossing, List.foldl_cons, hfirst, List.foldl_cons, hsecond,
    List.foldl_nil]

/-- Alone, the second takes all of the text. -/
theorem chooses_crossing :
    crossing.Chooses (crossing.TakesAlone (behind 0)) (utf8 "B") 3 := by
  obtain ⟨c, hrun⟩ := exists_run_latter_alone
  have hlatter : crossing.TakesAlone (behind 0) latter 3 := by
    rw [Grammar.TakesAlone, Munch.expr_eq_of_run hrun]
    rfl
  have hformer : crossing.TakesAlone (behind 0) former 2 := by
    rw [Grammar.TakesAlone, Munch.expr_eq_of_run run_former_first]
    rfl
  refine .winner (p := latter) ?_ (by decide) hlatter fun q hq k hk => ?_
  · rw [tokenProductions_crossing]
    exact List.mem_cons_of_mem _ List.mem_cons_self
  · rw [tokenProductions_crossing] at hq
    rcases List.mem_cons.mp hq with rfl | hq
    · obtain rfl : k = 2 := hk.symm.trans hformer
      exact .inl (by decide)
    · obtain rfl := List.mem_singleton.mp hq
      exact .inr ⟨hk.symm.trans hlatter, List.le_refl _⟩

end Sample

/-- **Sharing the cache can change the choice**: the token is two bytes of the first kind,
where the second alone takes three. -/
theorem Tokenizer.next_ne_chosen_alone :
    (start Sample.crossing (utf8 "wxz")).next.1.kind = utf8 "A"
      ∧ (start Sample.crossing (utf8 "wxz")).next.1.literal = utf8 "wx"
      ∧ Sample.crossing.Chooses (Sample.crossing.TakesAlone (.start (utf8 "wxz"))) (utf8 "B")
        3 := by
  obtain ⟨s, -, hs, hnext⟩ := next_eq (z := start Sample.crossing (utf8 "wxz")) rfl
  have hlongest : (start Sample.crossing (utf8 "wxz")).grammar.longest
      (start Sample.crossing (utf8 "wxz")).rest = _ := Sample.longest_crossing
  rw [isStuck, hlongest] at hs
  rcases hs with ⟨hstuck, -⟩ | ⟨-, rfl⟩
  · exact absurd hstuck (by decide)
  · rw [hnext]
    dsimp only
    rw [hlongest]
    exact ⟨rfl, by decide, Sample.chooses_crossing⟩

end Arbor
