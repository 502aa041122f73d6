import Std.Data.HashSet
import Std.Data.TreeMap
import Arbor.Toml.Reader

/-!
# TOML documents

The statements of a file add up to one **table**. In principle every key is
set once; a statement that sets one again makes the whole document malformed.
There are two exceptions:

* a table that has only come up on the way to something else is **implied**,
  and may still be opened, once;
* a key whose latest value is an **array** may be set again, to anything.

The way to a table may lead through an array of tables, and then goes on in
its last element. Which tables are implied and which keys hold arrays is
noted by the names on the way, whatever element it leads through.
-/

namespace Arbor

namespace Toml

/-- A value of a document. -/
inductive Value where
  /-- A string. -/
  | string (t : Text)
  /-- A truth value, a number or a date. -/
  | scalar
  /-- An array. -/
  | array (items : List Value)
  /-- A table. -/
  | table (entries : Std.TreeMap.Raw Text Value compare)
  /-- An array of tables that is made of statements: its last element, and
  those before it, latest first. -/
  | tables (last : Std.TreeMap.Raw Text Value compare)
      (earlier : List (Std.TreeMap.Raw Text Value compare))

/-- A table: keys, each at most once, and their values. -/
abbrev Table := Std.TreeMap.Raw Text Value compare

/-- The names that lead to a key, innermost first. -/
abbrev Way := List Text

/-- What is noted of keys. -/
structure Notes where
  /-- The tables that are only implied. -/
  implied : Std.HashSet Way
  /-- The keys whose latest value is an array. -/
  arrays : Std.HashSet Way

/-- A step in making a document: it may note something, and it may find that
the document is malformed. -/
abbrev Draft := StateT Notes Option

namespace Draft

/-- Marks a table as implied. -/
def imply (key : Way) : Draft Unit :=
  modify fun s => { s with implied := s.implied.insert key }

/-- Marks a table as opened. -/
def settle (key : Way) : Draft Unit :=
  modify fun s => { s with implied := s.implied.erase key }

/-- Notes whether the latest value of a key is an array. A key without a name
counts as the table it is in, unless that is the outermost. -/
def note (key : Way) (isArray : Bool) : Draft Unit :=
  let key := match key with
    | [] :: outer => if outer = [] then [[]] else outer
    | _ => key
  modify fun s =>
    { s with arrays := if isArray then s.arrays.insert key else s.arrays.erase key }

/-- Sets a key of the table at `way`. -/
def set (way : Way) (name : Text) (v : Value) (t : Table) : Draft Table := do
  let key := name :: way
  if !t.contains name then return t.insert name v
  else if key ∈ (← get).arrays then
    settle key
    return t.insert name v
  else if key ∈ (← get).implied then
    settle key
    return t
  else failure

/-- Adds a table to the array of tables under a key. -/
def addElement (name : Text) (t : Table) : Draft Table :=
  match t.get? name with
  | none => return t.insert name (.tables ∅ [])
  | some (.tables last earlier) => return t.insert name (.tables ∅ (last :: earlier))
  | some _ => failure

/-- Opens the table under a key, or adds one to an array of tables and opens
that. -/
def openTable (way : Way) (name : Text) (element : Bool) (t : Table) : Draft Table :=
  if element then addElement name t else set way name (.table ∅) t

/-- Does something to the table under a key. -/
def inside {α : Type} (name : Text) (act : Table → Draft (α × Table)) (t : Table) :
    Draft (α × Table) :=
  match t.get? name with
  | some (.table u) => do
    let (a, u) ← act u
    return (a, t.insert name (.table u))
  | some (.tables u us) => do
    let (a, u) ← act u
    return (a, t.insert name (.tables u us))
  | _ => failure

/-- Does something to the table that some names lead to from the table at
`way`. Each table on the way is first prepared for the next name. -/
def descend {α : Type} (prepare : Way → Text → Table → Draft Table)
    (act : Way → Table → Draft (α × Table)) (way : Way) :
    (names : List Text) → Table → Draft (α × Table)
  | [], t => act way t
  | n :: names, t => do
    inside n (descend prepare act (n :: way) names) (← prepare way n t)

/-- Makes the table under a key if it is missing, and then it is implied. -/
def supply (way : Way) (name : Text) (t : Table) : Draft Table :=
  if t.contains name then return t
  else do
    imply (name :: way)
    return t.insert name (.table ∅)

/-- Opens the table under a key as an implied one. -/
def openImplied (way : Way) (name : Text) (t : Table) : Draft Table := do
  imply (name :: way)
  set way name (.table ∅) t

/-- Whether a value is written as an array. -/
def isArray : Written → Bool
  | .array _ => true
  | _ => false

/-- Sets a key of the table at `way` to the value that has been made for it. -/
def store (way : Way) (name : Text) (w : Written) (made : Draft (Value × Table)) :
    Draft (Value × Table) := do
  let (v, t) ← made
  let t ← set way name v t
  note (name :: way) (isArray w)
  return (v, t)

/-- Sets the value of a key inside a table in braces, making the tables on the
way. -/
def put (v : Value) (name : Text) : (names : List Text) → Table → Option Table
  | [], t => some (t.insert name v)
  | n :: names, t => match t.get? n with
    | none => (put v name names ∅).map fun u => t.insert n (.table u)
    | some (.table u) => (put v name names u).map fun u => t.insert n (.table u)
    | some _ => none

mutual

/-- The value that is written for a key of the table at `way`. A table in braces
is built at its place in the document as well, which finds out what cannot be
set again; `inArray` says that it is an item of an array. -/
def value (way : Way) (name : Text) (inArray : Bool) :
    Written → Table → Draft (Value × Table)
  | .string s, t => return (.string s, t)
  | .scalar, t => return (.scalar, t)
  | .array ws, t => do
    note (name :: way) true
    let (vs, t) ← items way name ws t
    return (.array vs, t)
  | .inline ps, t => do
    let here := name :: way
    imply here
    let (u, t) ← inside name (pairs here ∅ ps) (← openTable way name inArray t)
    return (.table u, t)

/-- The items that are written for a key. -/
def items (way : Way) (name : Text) : List Written → Table → Draft (List Value × Table)
  | [], t => return ([], t)
  | w :: ws, t => do
    let (v, t) ← value way name true w t
    let (vs, t) ← items way name ws t
    return (v :: vs, t)

/-- Adds the pairs of a table in braces to the table `u`, and to the one at its
place in the document. -/
def pairs (way : Way) (u : Table) : List (Key × Written) → Table → Draft (Table × Table)
  | [], t => return (u, t)
  | (k, w) :: ps, t => do
    let (v, t) ← descend openImplied
      (fun way t => store way k.name w (value way k.name false w t)) way k.parents t
    let u ← StateT.lift (put v k.name k.parents u)
    pairs way u ps t

end

/-- Takes in a statement, given the names that lead to the open table. -/
def take (opened : List Text) : Statement → Table → Draft (List Text × Table)
  | .table k, t => header k false t
  | .element k, t => header k true t
  | .assign k w, t => do
    let (_, t) ← descend (fun _ _ t => return t)
      (descend openImplied (fun way t => store way k.name w (value way k.name false w t)) · k.parents)
      [] opened t
    return (opened, t)
where
  /-- Opens the table that a line of its own names. -/
  header (k : Key) (element : Bool) (t : Table) : Draft (List Text × Table) := do
    let (_, t) ← descend supply
      (fun way t => return ((), ← openTable way k.name element t)) [] k.parents t
    note ([] :: k.names.reverse) false
    return (k.names, t)

end Draft

/-- The table that statements add up to. -/
def ofStatements? (ss : List Statement) : Option Table := do
  let made : Draft (List Text × Table) :=
    ss.foldlM (fun (opened, t) s => Draft.take opened s t) ([], ∅)
  let ((_, t), _) ← made.run ⟨∅, ∅⟩
  return t

/-- **Reads a document.** -/
def read? (file : Text) : Option Table := (readStatements file).bind ofStatements?

end Toml

end Arbor
