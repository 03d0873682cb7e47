import Scoped.Grammar.Rule

/-!
# Patterns and the grammar

A pattern is what stands on the right of a grammar rule : texts, character classes,
sequences, ordered choices, repetitions, lookaheads and references to rules. Choice is
ordered : the second pattern of `alt` is tried only where the first fails. `Rule.body` is
the grammar itself.

`Pattern.Ranked` is the side condition that makes matching end. A pattern is ranked below
`k` when the rules it can reach without consuming a character have rank less than `k`, and
every repetition repeats a pattern that consumes. `Rule.ranked_body` : the grammar meets
it.
-/

namespace Scoped.Grammar

/-- What may stand between two parts of a sequence or a repetition. -/
inductive Gap where
  /-- Nothing. -/
  | none
  /-- Blanks and comments. -/
  | layout
deriving DecidableEq, Repr

/-- The right side of a grammar rule. -/
inductive Pattern where
  /-- Matches the empty text. -/
  | empty
  /-- Matches where the input ends. -/
  | finish
  /-- Matches exactly this text. -/
  | text (chars : List Char)
  /-- Matches one character of a class. -/
  | char (accepts : Char → Bool)
  /-- One pattern after the other, with a gap between them. -/
  | seq (gap : Gap) (first second : Pattern)
  /-- The first pattern, or the second where the first fails. -/
  | alt (first second : Pattern)
  /-- As many matches of the pattern as there are, with a gap between every two. -/
  | many (gap : Gap) (item : Pattern)
  /-- Succeeds without consuming where the pattern matches. -/
  | ahead (item : Pattern)
  /-- Succeeds without consuming where the pattern does not match. -/
  | notAhead (item : Pattern)
  /-- A match of a named rule. -/
  | rule (r : Rule)

namespace Pattern

/-- Whether every match of the pattern consumes at least one character. -/
def consumes : Pattern → Bool
  | empty | finish | many .. | ahead _ | notAhead _ => false
  | text cs => !cs.isEmpty
  | char _ => true
  | seq _ p q => p.consumes || q.consumes
  | alt p q => p.consumes && q.consumes
  | rule r => r.consumes

/-- The number of constructors in a pattern. -/
def size : Pattern → Nat
  | empty | finish | text _ | char _ | rule _ => 1
  | seq _ p q | alt p q => p.size + q.size + 1
  | many _ p | ahead p | notAhead p => p.size + 1

/-- The rules that the pattern can reach without consuming a character have rank less than
`k`, and what it repeats consumes. -/
def Ranked : Nat → Pattern → Prop
  | _, empty | _, finish | _, text _ | _, char _ => True
  | k, seq _ p q => p.Ranked k ∧ q.Ranked (bif p.consumes then Rule.topRank else k)
  | k, alt p q => p.Ranked k ∧ q.Ranked k
  | k, many _ p => p.consumes = true ∧ p.Ranked k
  | k, ahead p | k, notAhead p => p.Ranked k
  | k, rule r => r.rank < k

instance decidableRanked : (k : Nat) → (p : Pattern) → Decidable (p.Ranked k)
  | _, empty | _, finish | _, text _ | _, char _ => instDecidableTrue
  | k, seq _ p q =>
    have := decidableRanked k p
    have := decidableRanked (bif p.consumes then Rule.topRank else k) q
    inferInstanceAs (Decidable (_ ∧ _))
  | k, alt p q =>
    have := decidableRanked k p
    have := decidableRanked k q
    inferInstanceAs (Decidable (_ ∧ _))
  | k, many _ p =>
    have := decidableRanked k p
    inferInstanceAs (Decidable (_ ∧ _))
  | k, ahead p | k, notAhead p => decidableRanked k p
  | k, rule r => inferInstanceAs (Decidable (r.rank < k))

/-! ## Derived patterns -/

/-- The pattern, or nothing where it fails. -/
def optional (p : Pattern) : Pattern := alt p empty

/-- One match of the pattern or more, without gaps. -/
def atLeastOne (p : Pattern) : Pattern := seq .none p (many .none p)

/-- The first of the patterns that matches. The last one is given apart, so that there is one. -/
def choice (ps : List Pattern) (last : Pattern) : Pattern := ps.foldr alt last

/-- The patterns in order, with layout between them. -/
def phrase (ps : List Pattern) (last : Pattern) : Pattern := ps.foldr (seq .layout) last

/-- The patterns in order, with nothing between them. -/
def word (ps : List Pattern) (last : Pattern) : Pattern := ps.foldr (seq .none) last

/-- A text that no letter, digit or underscore follows. -/
def wholeWord (p : Pattern) : Pattern := word [p] (notAhead (rule .identChar))

/-- The item once or more, with the separator between every two, and layout around it. -/
def separated (item separator : Pattern) : Pattern :=
  phrase [item] (many .layout (phrase [separator] item))

/-- Items between an opening and a closing text, with commas between them. -/
def parenthesized (item : Pattern) : Pattern :=
  phrase [text ['('], optional (separated item (text [',']))] (text [')'])

/-- Statements between braces. -/
def braced : Pattern :=
  phrase [text ['\x7b'], many .layout (rule .statement)] (text ['\x7d'])

/-- A reserved word at the start of a phrase. The lookahead makes sure that the word is whole. -/
def opener (kw : Rule) (chars : List Char) : List Pattern := [ahead (rule kw), text chars]

end Pattern

open Pattern

/-- The characters of layout other than comments. -/
def isBlank (c : Char) : Bool := c == ' ' || c == '\t' || c == '\r' || c == '\n'

/-- The characters of names after the first. -/
def isWordChar (c : Char) : Bool := c.isAlphanum || c == '_'

/-- The characters with which a name can start. -/
def isWordStart (c : Char) : Bool := c.isAlpha || c == '_'

/-- The grammar : what each rule matches. -/
def Rule.body : Rule → Pattern
  | endOfInput => finish
  | whitespace => char isBlank
  | comment =>
    word [text ['/', '/']] (many .none (word [notAhead (text ['\n'])] (char fun _ => true)))
  | identChar => char isWordChar
  | kwLet => wholeWord (text ['l', 'e', 't'])
  | kwFn => wholeWord (text ['f', 'n'])
  | kwReturn => wholeWord (text ['r', 'e', 't', 'u', 'r', 'n'])
  | kwPrint => wholeWord (text ['p', 'r', 'i', 'n', 't'])
  | kwIf => wholeWord (text ['i', 'f'])
  | kwElse => wholeWord (text ['e', 'l', 's', 'e'])
  | keyword =>
    wholeWord (choice [text ['l', 'e', 't'], text ['f', 'n'], text ['r', 'e', 't', 'u', 'r', 'n'],
      text ['p', 'r', 'i', 'n', 't'], text ['i', 'f'], text ['e', 'l', 's', 'e'],
      text ['t', 'r', 'u', 'e'], text ['f', 'a', 'l', 's', 'e'], text ['n', 'i', 'l'],
      text ['a', 'n', 'd']] (text ['o', 'r']))
  | identifier =>
    word [notAhead (rule .keyword), char isWordStart] (many .none (rule .identChar))
  | script => phrase [empty, many .layout (rule .statement)] (rule .endOfInput)
  | statement =>
    choice [rule .functionDeclaration, rule .variableDeclaration, rule .printStatement,
      rule .returnStatement, rule .ifStatement, rule .blockStatement] (rule .expressionStatement)
  | functionDeclaration =>
    phrase (opener .kwFn ['f', 'n'] ++ [rule .identifier, rule .formalParameters])
      (rule .functionBody)
  | variableDeclaration =>
    phrase (opener .kwLet ['l', 'e', 't'] ++
      [rule .identifier, optional (phrase [text ['=']] (rule .expression))]) (text [';'])
  | printStatement =>
    phrase (opener .kwPrint ['p', 'r', 'i', 'n', 't'] ++ [rule .expression]) (text [';'])
  | returnStatement =>
    phrase (opener .kwReturn ['r', 'e', 't', 'u', 'r', 'n'] ++ [optional (rule .expression)])
      (text [';'])
  | ifStatement =>
    phrase (opener .kwIf ['i', 'f'] ++
      [text ['('], rule .expression, text [')'], rule .statement])
      (optional (phrase (opener .kwElse ['e', 'l', 's', 'e']) (rule .statement)))
  | blockStatement => braced
  | expressionStatement => phrase [rule .expression] (text [';'])
  | formalParameters => parenthesized (rule .identifier)
  | functionBody => braced
  | expression => alt (rule .assignmentExpression) (rule .logicalOrExpression)
  | assignOperator => word [text ['=']] (notAhead (text ['=']))
  | assignmentExpression =>
    phrase [rule .identifier, ahead (rule .assignOperator), text ['=']] (rule .expression)
  | logicalOrExpression => separated (rule .logicalAndExpression) (rule .orOperator)
  | logicalAndExpression => separated (rule .equalityExpression) (rule .andOperator)
  | equalityExpression => separated (rule .relationalExpression) (rule .equalityOperator)
  | relationalExpression => separated (rule .additiveExpression) (rule .relationalOperator)
  | additiveExpression => separated (rule .multiplicativeExpression) (rule .additiveOperator)
  | multiplicativeExpression => separated (rule .unaryExpression) (rule .multiplicativeOperator)
  | unaryExpression =>
    alt (phrase [rule .unaryOperator] (rule .unaryExpression)) (rule .callExpression)
  | callExpression => phrase [rule .primaryExpression] (many .layout (rule .arguments))
  | arguments => parenthesized (rule .expression)
  | primaryExpression =>
    choice [rule .functionExpression, rule .literal, rule .identifier]
      (phrase [text ['('], rule .expression] (text [')']))
  | functionExpression =>
    phrase (opener .kwFn ['f', 'n'] ++ [rule .formalParameters]) (rule .functionBody)
  | orOperator => wholeWord (text ['o', 'r'])
  | andOperator => wholeWord (text ['a', 'n', 'd'])
  | equalityOperator => alt (text ['=', '=']) (text ['!', '='])
  | relationalOperator =>
    choice [text ['<', '='], text ['>', '='], text ['<']] (text ['>'])
  | additiveOperator => alt (text ['+']) (text ['-'])
  | multiplicativeOperator => choice [text ['*'], text ['/']] (text ['%'])
  | unaryOperator => alt (text ['-']) (text ['!'])
  | literal =>
    choice [rule .nilLiteral, rule .booleanLiteral, rule .numericLiteral] (rule .stringLiteral)
  | nilLiteral => wholeWord (text ['n', 'i', 'l'])
  | booleanLiteral => wholeWord (alt (text ['t', 'r', 'u', 'e']) (text ['f', 'a', 'l', 's', 'e']))
  | numericLiteral =>
    word [atLeastOne (char Char.isDigit)]
      (optional (word [text ['.']] (atLeastOne (char Char.isDigit))))
  | stringLiteral => word [text ['"'], rule .stringCharacters] (text ['"'])
  | stringCharacters =>
    many .none (alt
      (word [notAhead (alt (text ['"']) (text ['\\']))] (char fun _ => true))
      (word [text ['\\']] (char fun _ => true)))

/-- The grammar meets the side condition under which matching ends. -/
theorem Rule.ranked_body (r : Rule) : r.body.Ranked r.rank := by
  cases r <;> decide

/-- A rule can be matched on its own. -/
theorem Rule.ranked_rule (r : Rule) : (rule r).Ranked (r.rank + 1) := Nat.lt_succ_self _

/-- A rule consumes exactly if its body does. -/
theorem Rule.consumes_body (r : Rule) : r.body.consumes = r.consumes := by
  cases r <;> rfl

end Scoped.Grammar
