import Scoped.Grammar.Rule

/-!
# Trees

A match is recorded as a tree that keeps every character : the layout that was skipped,
the texts that were matched, and a node for each rule that is not silent. `Tree.textAll`
reads the characters of a forest back in order.
-/

namespace Scoped.Grammar

/-- A match, with every character that it consumed. -/
inductive Tree where
  /-- Blanks and comments that were skipped. -/
  | layout (text : List Char)
  /-- A text that was matched. -/
  | terminal (text : List Char)
  /-- A match of a rule, with its parts in order. -/
  | node (rule : Rule) (parts : List Tree)

namespace Tree

mutual

/-- Puts the characters of a tree in front of `acc`, the last character first. -/
def pushText : Tree → List Char → List Char
  | layout t, acc | terminal t, acc => t.reverseAux acc
  | node _ ts, acc => pushTextAll ts acc

/-- Puts the characters of a forest in front of `acc`, the last character first. -/
def pushTextAll : List Tree → List Char → List Char
  | [], acc => acc
  | t :: ts, acc => pushTextAll ts (t.pushText acc)

end

/-- The characters of a tree. -/
def text (t : Tree) : List Char := (t.pushText []).reverse

/-- The characters of a forest. -/
def textAll (ts : List Tree) : List Char := (pushTextAll ts []).reverse

mutual

/-- Pushing a tree only adds in front. -/
theorem pushText_eq : ∀ (t : Tree) (acc : List Char), t.pushText acc = t.text.reverse ++ acc
  | layout t, acc | terminal t, acc => by simp [text, pushText, List.reverseAux_eq]
  | node r ts, acc => by
    have h := pushTextAll_eq ts
    simp only [text, pushText, List.reverse_reverse]
    rw [h acc, h [], List.append_nil]

/-- Pushing a forest only adds in front. -/
theorem pushTextAll_eq :
    ∀ (ts : List Tree) (acc : List Char), pushTextAll ts acc = (textAll ts).reverse ++ acc
  | [], acc => rfl
  | t :: ts, acc => by
    simp only [textAll, pushTextAll, List.reverse_reverse]
    rw [pushText_eq t acc, pushText_eq t [], pushTextAll_eq ts, pushTextAll_eq ts]
    simp

end

@[simp]
theorem text_layout (t : List Char) : (layout t).text = t := by
  simp [text, pushText, List.reverseAux_eq]

@[simp]
theorem text_terminal (t : List Char) : (terminal t).text = t := by
  simp [text, pushText, List.reverseAux_eq]

@[simp]
theorem text_node (r : Rule) (ts : List Tree) : (node r ts).text = textAll ts := rfl

@[simp]
theorem textAll_nil : textAll [] = [] := rfl

@[simp]
theorem textAll_cons (t : Tree) (ts : List Tree) : textAll (t :: ts) = t.text ++ textAll ts := by
  show (pushTextAll ts (t.pushText [])).reverse = _
  rw [pushTextAll_eq, pushText_eq]
  simp

@[simp]
theorem textAll_append (ts us : List Tree) : textAll (ts ++ us) = textAll ts ++ textAll us := by
  induction ts with
  | nil => rfl
  | cons t ts ih => simp [ih]

end Tree

end Scoped.Grammar
