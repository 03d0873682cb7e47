import Scoped.Grammar.Matcher
import Scoped.Span
import Scoped.Text.Quoted

/-!
# Located nodes

A `Node` is a match of a rule at its place : the span that it covers, the texts that were
matched directly under it, and the nodes below it. `locate` reads the nodes off a forest
that starts at a given offset. `outline` writes the nodes of a forest down, one on a line.
-/

namespace Scoped.Grammar

/-- A match of a rule at its place. -/
structure Node where
  /-- The rule that matched. -/
  rule : Rule
  /-- The stretch that it matched. -/
  span : Span
  /-- The texts matched directly under it, one after the other. -/
  text : List Char
  /-- The matches below it, in order. -/
  children : List Node

/-- The nodes of a forest, with what belongs to the node above them. -/
structure Located where
  /-- The nodes, in order. -/
  nodes : List Node
  /-- The texts that stand directly in the forest. -/
  text : List Char
  /-- The offset after the forest. -/
  stop : Nat

namespace Tree

/-- Locates a forest that starts at `pos`. `nodes` and `text` hold what stands before it,
last one first. -/
def locateFrom (nodes : List Node) (text : List Char) (pos : Nat) : List Tree → Located
  | [] => ⟨nodes.reverse, text.reverse, pos⟩
  | layout t :: ts => locateFrom nodes text (pos + utf8Size t) ts
  | terminal t :: ts => locateFrom nodes (t.reverseAux text) (pos + utf8Size t) ts
  | node r parts :: ts =>
    let inner := locateFrom [] [] pos parts
    locateFrom (⟨r, ⟨pos, inner.stop⟩, inner.text, inner.nodes⟩ :: nodes) text inner.stop ts

/-- Locates a forest at the start of a script. -/
def locate (ts : List Tree) : List Node := (locateFrom [] [] 0 ts).nodes

/-- The line of a node in an outline. -/
def outlineLine (level : Nat) (r : Rule) (pos : Nat) (text : List Char) : String :=
  String.ofList (List.replicate (2 * level) ' ') ++ r.name ++ " => (" ++ toString pos ++ "," ++
    toString (pos + utf8Size text) ++ ") #" ++ Text.quoted (String.ofList text)

/-- The lines of a forest that starts at `pos`, after the lines before it, last one first. -/
def outlineFrom (level pos : Nat) (lines : List String) : List Tree → List String
  | [] => lines
  | layout t :: ts | terminal t :: ts => outlineFrom level (pos + utf8Size t) lines ts
  | node r parts :: ts =>
    let text := textAll parts
    let lines := outlineFrom (level + 1) pos (outlineLine level r pos text :: lines) parts
    outlineFrom level (pos + utf8Size text) lines ts

/-- The nodes of a forest, one on a line, each two blanks deeper than the node above it. -/
def outline (ts : List Tree) : List String := (outlineFrom 0 0 [] ts).reverse

end Tree

end Scoped.Grammar
