import Scoped.Proofs.Derivations
import Scoped.Proofs.Erasure

/-!
# Terminals and lexemes

The leaves of a match are the texts that were matched and the layout between them, and one after
the other they are the text that was matched (`Tree.flatMap_text_leavesAll`). A terminal is a leaf
with the rule of the innermost node around it. That rule tells which terminals are names and
literals, and which parentheses only group : a group leaves no node, so its parentheses stand
directly in the call around it, and nothing else does.

A *lexeme* is what a terminal says : a name, the value of a literal, or a mark, which stands for
itself. `lexemes` writes a program down in order, without grouping.
-/

namespace Scoped

/-- What a terminal says. -/
inductive Lexeme where
  /-- A reserved word, an operator or punctuation. -/
  | mark (text : List Char)
  | name (x : String)
  | value (l : Literal)

namespace Grammar

/-- A text that was matched, with the rule of the innermost node around it. -/
structure Terminal where
  rule : Rule
  text : List Char

/-- A stretch of the script that a match has nothing below. -/
inductive Leaf where
  /-- Blanks and comments. -/
  | layout (text : List Char)
  | terminal (t : Terminal)

/-- The characters of a leaf. -/
def Leaf.text : Leaf → List Char
  | layout t => t
  | terminal t => t.text

/-- A leaf that is not layout. -/
def Leaf.terminal? : Leaf → Option Terminal
  | layout _ => none
  | terminal t => some t

namespace Terminal

/-- The parentheses around an expression that is an operand. -/
def isGrouping (t : Terminal) : Bool :=
  t.rule = .callExpression && (t.text = ['('] || t.text = [')'])

/-- The value of a literal, or of what stands between the quotes of a string. -/
def literal? (t : Terminal) : Option Literal :=
  match t.rule with
  | .nilLiteral => if t.text = ['n', 'i', 'l'] then some .nil else none
  | .booleanLiteral =>
    if t.text = ['t', 'r', 'u', 'e'] then some (.bool true)
    else if t.text = ['f', 'a', 'l', 's', 'e'] then some (.bool false)
    else none
  | .numericLiteral => Literal.ofNumeral? t.text
  | .stringCharacters => some (.string (String.ofList (Literal.unescape t.text)))
  | _ => none

/-- What the terminal says. -/
def lexeme (t : Terminal) : Lexeme :=
  match t.literal? with
  | some l => .value l
  | none => if t.rule = .identifier then .name (String.ofList t.text) else .mark t.text

end Terminal

namespace Tree

mutual

/-- The leaves of a tree, in order, in a node of rule `owner`. -/
def leaves : (owner : Rule) → Tree → List Leaf
  | _, layout t => [.layout t]
  | owner, terminal t => [.terminal ⟨owner, t⟩]
  | _, node r ts => leavesAll r ts

/-- The leaves of a forest, in order, in a node of rule `owner`. -/
def leavesAll : (owner : Rule) → List Tree → List Leaf
  | _, [] => []
  | owner, t :: ts => t.leaves owner ++ leavesAll owner ts

end

/-- The terminals of a forest, in order. -/
def terminalsAll (owner : Rule) (ts : List Tree) : List Terminal :=
  (leavesAll owner ts).filterMap Leaf.terminal?

/-- What the terminals of a forest say, without grouping. -/
def lexemesAll (owner : Rule) (ts : List Tree) : List Lexeme :=
  ((terminalsAll owner ts).filter (!·.isGrouping)).map Terminal.lexeme

variable {owner : Rule} {ts us : List Tree}

mutual

theorem flatMap_text_leaves : ∀ (owner : Rule) (t : Tree),
    (t.leaves owner).flatMap Leaf.text = t.text
  | _, layout t => by simp [leaves, Leaf.text]
  | _, terminal t => by simp [leaves, Leaf.text]
  | _, node r ts => by rw [leaves, flatMap_text_leavesAll r ts, text_node]

/-- The leaves of a forest are all its characters, in order. -/
theorem flatMap_text_leavesAll : ∀ (owner : Rule) (ts : List Tree),
    (leavesAll owner ts).flatMap Leaf.text = textAll ts
  | _, [] => rfl
  | owner, t :: ts => by
    rw [leavesAll, List.flatMap_append, flatMap_text_leaves owner t,
      flatMap_text_leavesAll owner ts, textAll_cons]

end

theorem leavesAll_append :
    leavesAll owner (ts ++ us) = leavesAll owner ts ++ leavesAll owner us := by
  induction ts with
  | nil => rfl
  | cons t ts ih => rw [List.cons_append, leavesAll, leavesAll, ih, List.append_assoc]

theorem leavesAll_node (r : Rule) (ts : List Tree) :
    leavesAll owner [node r ts] = leavesAll r ts := by
  rw [leavesAll, leavesAll, leaves, List.append_nil]

@[simp]
theorem lexemesAll_nil : lexemesAll owner [] = [] := rfl

@[simp]
theorem lexemesAll_append :
    lexemesAll owner (ts ++ us) = lexemesAll owner ts ++ lexemesAll owner us := by
  simp [lexemesAll, terminalsAll, leavesAll_append]

@[simp]
theorem lexemesAll_gap (cs : List Char) : lexemesAll owner (Gap.tree cs) = [] := by
  cases cs with
  | nil => rfl
  | cons c cs => rfl

@[simp]
theorem lexemesAll_node (r : Rule) (ts : List Tree) :
    lexemesAll owner [node r ts] = lexemesAll r ts := by
  simp only [lexemesAll, terminalsAll, leavesAll_node]

end Tree

/-- The layout in a sequence is that of its parts and of the gap between them. -/
theorem Gap.Admits.stretch_of_mem {gap : Gap} {cs t : List Char} (hcs : gap.Admits cs)
    {owner : Rule} {us vs : List Tree}
    (ht : .layout t ∈ Tree.leavesAll owner (us ++ (Gap.tree cs ++ vs))) :
    .layout t ∈ Tree.leavesAll owner us ∨ (t ≠ [] ∧ Layout.Stretch t) ∨
      .layout t ∈ Tree.leavesAll owner vs := by
  rw [Tree.leavesAll_append, Tree.leavesAll_append, List.mem_append, List.mem_append] at ht
  refine ht.imp_right (Or.imp_left fun ht => ?_)
  cases cs with
  | nil => cases ht
  | cons c cs =>
    obtain rfl : t = c :: cs := by simpa [Gap.tree, Tree.leavesAll, Tree.leaves] using ht
    cases gap with
    | none => cases hcs
    | layout => exact ⟨by simp, hcs⟩

/-- All that is skipped in a derived forest is layout. -/
theorem Pattern.Derives.stretch_of_mem {n : Nat} {p : Pattern} {ts : List Tree}
    (h : p.Derives n ts) {owner : Rule} {t : List Char}
    (ht : .layout t ∈ Tree.leavesAll owner ts) : t ≠ [] ∧ Layout.Stretch t := by
  induction h generalizing owner with
  | empty | finish | manyNone | ahead | notAhead => cases ht
  | text | char => simp [Tree.leavesAll, Tree.leaves] at ht
  | seq hcs _ _ ihp ihq =>
    rcases hcs.stretch_of_mem ht with ht | ht | ht
    · exact ihp ht
    · exact ht
    · exact ihq ht
  | altLeft _ ih | altRight _ ih | manyOne _ ih => exact ih ht
  | manyMore _ _ hcs _ ihm ihp =>
    rcases hcs.stretch_of_mem ht with ht | ht | ht
    · exact ihm ht
    · exact ht
    · exact ihp ht
  | @rule _ r ts _ ih =>
    cases hr : r.kind with
    | silent =>
      rw [r.wrap_silent hr] at ht
      exact ih ht
    | atomic =>
      rw [r.wrap_atomic hr] at ht
      simp [Tree.leavesAll, Tree.leaves] at ht
    | normal =>
      rw [r.wrap_node (.inl hr), Tree.leavesAll_node] at ht
      exact ih ht
    | compound =>
      rw [r.wrap_node (.inr hr), Tree.leavesAll_node] at ht
      exact ih ht

end Grammar

/-! ## The lexemes of programs -/

namespace Lexeme

/-- The lexemes between parentheses. -/
def parens (ls : List Lexeme) : List Lexeme := .mark ['('] :: (ls ++ [.mark [')']])

/-- The lexemes between braces. -/
def braces (ls : List Lexeme) : List Lexeme := .mark ['\x7b'] :: (ls ++ [.mark ['\x7d']])

/-- The items of a list, with commas between them. -/
def listed (items : List (List Lexeme)) : List Lexeme := [.mark [',']].intercalate items

theorem listed_cons (item : List Lexeme) (items : List (List Lexeme)) :
    listed (item :: items) = item ++ items.flatMap (.mark [','] :: ·) := by
  induction items generalizing item with
  | nil => simp [listed]
  | cons next items ih =>
    rw [List.flatMap_cons, List.cons_append, ← ih next]
    simp [listed, List.intercalate]

end Lexeme

/-- A name as it is written. -/
def Ident.lexeme (x : Ident) : Lexeme := .name x.name

/-- A literal as it is written. Only strings have marks around them. -/
def Literal.lexemes : Literal → List Lexeme
  | .string s => [.mark ['"'], .value (.string s), .mark ['"']]
  | l => [.value l]

mutual

/-- An expression as it is written, without grouping. -/
def Expr.lexemes : Expr → List Lexeme
  | .literal _ l => l.lexemes
  | .ident x => [x.lexeme]
  | .assign _ x e => x.lexeme :: .mark ['='] :: e.lexemes
  | .unary _ op e => .mark op.symbol.toList :: e.lexemes
  | .binary _ op l r => l.lexemes ++ .mark op.symbol.toList :: r.lexemes
  | .logical _ op l r => l.lexemes ++ .mark op.symbol.toList :: r.lexemes
  | .call _ f args => f.lexemes ++ Lexeme.parens (Lexeme.listed (Expr.lexemesEach args))
  | .function d => d.lexemes

/-- Expressions as they are written, one by one. -/
def Expr.lexemesEach : List Expr → List (List Lexeme)
  | [] => []
  | e :: es => e.lexemes :: Expr.lexemesEach es

/-- A statement as it is written. -/
def Stmt.lexemes : Stmt → List Lexeme
  | .expr _ e => e.lexemes ++ [.mark [';']]
  | .print _ e => .mark ['p', 'r', 'i', 'n', 't'] :: (e.lexemes ++ [.mark [';']])
  | .ret _ none => [.mark ['r', 'e', 't', 'u', 'r', 'n'], .mark [';']]
  | .ret _ (some e) => .mark ['r', 'e', 't', 'u', 'r', 'n'] :: (e.lexemes ++ [.mark [';']])
  | .block _ ss => Lexeme.braces (Stmt.lexemesAll ss)
  | .bind _ x none => [.mark ['l', 'e', 't'], x.lexeme, .mark [';']]
  | .bind _ x (some e) =>
    .mark ['l', 'e', 't'] :: x.lexeme :: .mark ['='] :: (e.lexemes ++ [.mark [';']])
  | .function d => d.lexemes
  | .cond _ e s none => .mark ['i', 'f'] :: (Lexeme.parens e.lexemes ++ s.lexemes)
  | .cond _ e s (some s') => .mark ['i', 'f'] ::
    (Lexeme.parens e.lexemes ++ (s.lexemes ++ .mark ['e', 'l', 's', 'e'] :: s'.lexemes))

/-- Statements as they are written. -/
def Stmt.lexemesAll : List Stmt → List Lexeme
  | [] => []
  | s :: ss => s.lexemes ++ Stmt.lexemesAll ss

/-- A function as it is written, with its name if it has one. -/
def FunctionDef.lexemes : FunctionDef → List Lexeme
  | .mk _ id params _ body => .mark ['f', 'n'] :: (id.toList.map Ident.lexeme ++
    (Lexeme.parens (Lexeme.listed (params.map fun x => [x.lexeme])) ++
      Lexeme.braces (Stmt.lexemesAll body)))

end

/-- A program as it is written. -/
def Program.lexemes (p : Program) : List Lexeme := Stmt.lexemesAll p.body

mutual

theorem Expr.lexemes_erase : ∀ e : Expr, e.erase.lexemes = e.lexemes
  | .literal .. | .ident _ => rfl
  | .assign _ x e => by
    simp only [Expr.erase, Expr.lexemes, e.lexemes_erase]
    rfl
  | .unary _ _ e => by simp only [Expr.erase, Expr.lexemes, e.lexemes_erase]
  | .binary _ _ l r | .logical _ _ l r => by
    simp only [Expr.erase, Expr.lexemes, l.lexemes_erase, r.lexemes_erase]
  | .call _ f args => by
    simp only [Expr.erase, Expr.lexemes, f.lexemes_erase, Expr.lexemesEach_erase args]
  | .function d => d.lexemes_erase

theorem Expr.lexemesEach_erase : ∀ es : List Expr,
    Expr.lexemesEach (Expr.eraseAll es) = Expr.lexemesEach es
  | [] => rfl
  | e :: es => by rw [Expr.eraseAll, Expr.lexemesEach, Expr.lexemesEach, e.lexemes_erase,
      Expr.lexemesEach_erase es]

theorem Stmt.lexemes_erase : ∀ s : Stmt, s.erase.lexemes = s.lexemes
  | .expr _ e | .print _ e | .ret _ (some e) => by
    simp only [Stmt.erase, Stmt.lexemes, e.lexemes_erase]
  | .ret _ none | .bind _ _ none => rfl
  | .bind _ x (some e) => by
    simp only [Stmt.erase, Stmt.lexemes, e.lexemes_erase]
    rfl
  | .block _ ss => by simp only [Stmt.erase, Stmt.lexemes, Stmt.lexemesAll_erase ss]
  | .function d => d.lexemes_erase
  | .cond _ e s none => by simp only [Stmt.erase, Stmt.lexemes, e.lexemes_erase, s.lexemes_erase]
  | .cond _ e s (some s') => by
    simp only [Stmt.erase, Stmt.lexemes, e.lexemes_erase, s.lexemes_erase, s'.lexemes_erase]

theorem Stmt.lexemesAll_erase : ∀ ss : List Stmt,
    Stmt.lexemesAll (Stmt.eraseAll ss) = Stmt.lexemesAll ss
  | [] => rfl
  | s :: ss => by rw [Stmt.eraseAll, Stmt.lexemesAll, Stmt.lexemesAll, s.lexemes_erase,
      Stmt.lexemesAll_erase ss]

theorem FunctionDef.lexemes_erase : ∀ d : FunctionDef, d.erase.lexemes = d.lexemes
  | .mk _ id params _ body => by
    simp only [FunctionDef.erase, FunctionDef.lexemes, Stmt.lexemesAll_erase body,
      Option.toList_map, List.map_map]
    rfl

end

end Scoped
