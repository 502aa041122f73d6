import Arbor.Editor.Range
import Arbor.Node.Query

/-!
# Hovering

What an editor shows about the node under the cursor, in Markdown: the kinds
of the nodes on the path to it, outermost first, and its text, if that fits on
a line.
-/

namespace Arbor

namespace Editor

/-- A kind as inline code. -/
def inlineCode (kind : Text) : Text := utf8 "`" ++ kind ++ utf8 "`"

/-- A text as a block of code. -/
def codeBlock (t : Text) : Text := utf8 "\n\n```\n" ++ t ++ utf8 "\n```"

/-- The text of a node if it can be shown: not empty and on one line. -/
def lineOf? (source : Source) (n : Node) : Except Fault (Option Text) := do
  return (← n.source? source).filter fun t => t ≠ [] ∧ Text.newline ∉ t

/-- **What is shown about the last node of a path.** -/
def hoverText (source : Source) (path : List Node) : Except Fault Text := do
  let kinds ← path.mapM Node.kind
  let line ← path.getLast?.elim (.ok none) (lineOf? source)
  return Text.join (utf8 " › ") (kinds.map inlineCode) ++ line.elim [] codeBlock

end Editor

end Arbor
