import Arbor.Node.Query
import Arbor.Json
import Arbor.Text.Quoted

/-!
# Outline and JSON of a tree

A tree is shown as an **outline**, a line for each node in pre-order, or
exported as JSON. Both name the rules, so both fault on a node whose rule has
no name. A missing child has a line of its own, but no JSON. Where there is no
tree at all the outline is empty.
-/

namespace Arbor

namespace Node

/-- The line of a node at a depth: two blanks a level, the kind, a mark on
tokens, perhaps the span, and the text of a leaf. -/
def outlineLine (withSpans : Bool) (depth : Nat) (n : Node) : Except Fault Text := do
  let kind ← n.kind
  let span ← if withSpans then some <$> n.extent else pure none
  return Text.times (utf8 "  ") depth ++ kind
    ++ (if n.isToken then utf8 " token" else [])
    ++ (span.elim [] fun s => utf8 " [" ++ s.render ++ utf8 "]")
    ++ (match n.text? with
      | some t => utf8 " " ++ t.quoted
      | none => [])
    ++ utf8 "\n"

/-- **The outline of a tree.** -/
def outline (withSpans : Bool) (root : Node) : Except Fault Text := do
  if root.isMissing then return []
  else return (← (root.levels 0).mapM fun (depth, n) => outlineLine withSpans depth n).flatten

/-- A node on a line: its span, its kind and, if wanted, its source text. -/
def describe (source : Source) (withText : Bool) (n : Node) : Except Fault Text := do
  let line := (← n.extent).render ++ utf8 " " ++ (← n.kind)
  if withText then
    return match ← n.source? source with
      | some t => line ++ utf8 " " ++ t.quoted
      | none => line
  else return line

/-- A position as JSON. -/
def jsonOfPosition (p : Position) : Json :=
  .obj [(utf8 "offset", .num p.offset), (utf8 "line", .num p.line), (utf8 "column", .num p.column)]

/-- A span as JSON. -/
def jsonOfSpan (s : Span) : Json :=
  .obj [(utf8 "start", jsonOfPosition s.start), (utf8 "end", jsonOfPosition s.stop)]

/-- A field whose value is a name, left out if the name is empty. -/
def nameField (key : String) (name : Text) : List (Text × Json) :=
  if name = [] then [] else [(utf8 key, .str name)]

mutual

/-- **A tree as JSON.** A leaf has a text, even an empty one; an empty name
and an empty list of children are left out. -/
def toJson : Node → Except Fault Json
  | composite _ r cs s => do
    let name ← r.elim (.ok []) Rule.name
    let children ← toJsonAll cs
    return .obj ([(utf8 "kind", .str (utf8 "composite"))] ++ nameField "rule" name
      ++ [(utf8 "span", jsonOfSpan s)]
      ++ if children.isEmpty then [] else [(utf8 "children", .arr children)])
  | terminal _ r t s => do
    let name ← r.elim (.ok []) Rule.name
    return .obj ([(utf8 "kind", .str (utf8 "terminal"))] ++ nameField "rule" name
      ++ [(utf8 "text", .str t), (utf8 "span", jsonOfSpan s)])
  | token _ k t s =>
    return .obj ([(utf8 "kind", .str (utf8 "token"))] ++ nameField "token" k
      ++ [(utf8 "text", .str t), (utf8 "span", jsonOfSpan s)])
  | missing _ => .error .noNode

/-- Some trees as JSON. -/
def toJsonAll : List Node → Except Fault (List Json)
  | [] => return []
  | n :: ns => return (← n.toJson) :: (← toJsonAll ns)

end

/-- The JSON text of a tree where it is part of another value. It is null there
if it is missing. Only composites can be nested too deep. -/
def jsonPart (n : Node) : Except Fault (Except Json.WriteError Text) := do
  if n.isMissing then return .ok (utf8 "null")
  else return ((← n.toJson).handOn Json.compact).mapError fun _ =>
    .partTooDeep (utf8 "*cst.Composite")

end Node

end Arbor
