import Arbor.Editor.Range
import Arbor.Node

/-!
# Selections

Growing a selection goes along the path from a node to the root. The
**selection** at a path is the list of the ranges of its nodes, innermost
first; a node with the range of the node around it adds none.
-/

namespace Arbor

namespace Editor

/-- Puts the range of a span inside a selection, unless the innermost range is
just that. -/
def narrow (outer : List Range) (s : Span) : List Range :=
  let r := Range.ofSpan s
  if outer.head? = some r then outer else r :: outer

/-- **The selection along the spans of a path** that starts at the root. Without
a path the start of the document is selected. -/
def selection (spans : List Span) : List Range :=
  match spans.foldl narrow [] with
  | [] => [.origin]
  | ranges => ranges

/-- The selection along a path. -/
def selectionOf (path : List Node) : Except Fault (List Range) :=
  return selection (← path.mapM Node.extent)

end Editor

end Arbor
