/-!
# The rules of the grammar

A script is matched by named rules. A rule has a *kind*, which says what a match of it
leaves in the tree and whether layout (blanks and comments) may stand between its parts,
and a *rank* : without consuming a character a rule only ever calls rules of smaller rank,
which is why matching ends.
-/

namespace Scoped.Grammar

/-- The named rules, the end of the input first and then in the order of their definition.
Reports of what was expected list rules in this order. -/
inductive Rule where
  | endOfInput
  | whitespace
  | comment
  | identChar
  | kwLet
  | kwFn
  | kwReturn
  | kwPrint
  | kwIf
  | kwElse
  | keyword
  | identifier
  | script
  | statement
  | functionDeclaration
  | variableDeclaration
  | printStatement
  | returnStatement
  | ifStatement
  | blockStatement
  | expressionStatement
  | formalParameters
  | functionBody
  | expression
  | assignOperator
  | assignmentExpression
  | logicalOrExpression
  | logicalAndExpression
  | equalityExpression
  | relationalExpression
  | additiveExpression
  | multiplicativeExpression
  | unaryExpression
  | callExpression
  | arguments
  | primaryExpression
  | functionExpression
  | orOperator
  | andOperator
  | equalityOperator
  | relationalOperator
  | additiveOperator
  | multiplicativeOperator
  | unaryOperator
  | literal
  | nilLiteral
  | booleanLiteral
  | numericLiteral
  | stringLiteral
  | stringCharacters
deriving DecidableEq, Repr

namespace Rule

/-- The name by which reports and printed trees refer to a rule. -/
def name : Rule → String
  | endOfInput => "EOI"
  | whitespace => "WHITESPACE"
  | comment => "COMMENT"
  | identChar => "ident_char"
  | kwLet => "kw_let"
  | kwFn => "kw_fn"
  | kwReturn => "kw_return"
  | kwPrint => "kw_print"
  | kwIf => "kw_if"
  | kwElse => "kw_else"
  | keyword => "keyword"
  | identifier => "identifier"
  | script => "script"
  | statement => "statement"
  | functionDeclaration => "function_declaration"
  | variableDeclaration => "variable_declaration"
  | printStatement => "print_statement"
  | returnStatement => "return_statement"
  | ifStatement => "if_statement"
  | blockStatement => "block_statement"
  | expressionStatement => "expression_statement"
  | formalParameters => "formal_parameters"
  | functionBody => "function_body"
  | expression => "expression"
  | assignOperator => "assign_operator"
  | assignmentExpression => "assignment_expression"
  | logicalOrExpression => "logical_or_expression"
  | logicalAndExpression => "logical_and_expression"
  | equalityExpression => "equality_expression"
  | relationalExpression => "relational_expression"
  | additiveExpression => "additive_expression"
  | multiplicativeExpression => "multiplicative_expression"
  | unaryExpression => "unary_expression"
  | callExpression => "call_expression"
  | arguments => "arguments"
  | primaryExpression => "primary_expression"
  | functionExpression => "function_expression"
  | orOperator => "or_operator"
  | andOperator => "and_operator"
  | equalityOperator => "equality_operator"
  | relationalOperator => "relational_operator"
  | additiveOperator => "additive_operator"
  | multiplicativeOperator => "multiplicative_operator"
  | unaryOperator => "unary_operator"
  | literal => "literal"
  | nilLiteral => "nil_literal"
  | booleanLiteral => "boolean_literal"
  | numericLiteral => "numeric_literal"
  | stringLiteral => "string_literal"
  | stringCharacters => "string_characters"

/-- The rules in order. -/
def all : List Rule :=
  [endOfInput, whitespace, comment, identChar, kwLet, kwFn, kwReturn, kwPrint, kwIf, kwElse,
   keyword, identifier, script, statement, functionDeclaration, variableDeclaration,
   printStatement, returnStatement, ifStatement, blockStatement, expressionStatement,
   formalParameters, functionBody, expression, assignOperator, assignmentExpression,
   logicalOrExpression, logicalAndExpression, equalityExpression, relationalExpression,
   additiveExpression, multiplicativeExpression, unaryExpression, callExpression, arguments,
   primaryExpression, functionExpression, orOperator, andOperator, equalityOperator,
   relationalOperator, additiveOperator, multiplicativeOperator, unaryOperator, literal,
   nilLiteral, booleanLiteral, numericLiteral, stringLiteral, stringCharacters]

theorem mem_all (r : Rule) : r ∈ all := by
  cases r <;> decide

/-- The rule of a name. -/
def ofName? (s : String) : Option Rule := all.find? (·.name = s)

/-- What a match of a rule leaves in the tree. -/
inductive Kind where
  /-- A node with the parts of the match below it. -/
  | normal
  /-- No node : the parts of the match stand in for it. -/
  | silent
  /-- A node that holds the matched text and nothing else. -/
  | atomic
  /-- A node with its parts below it, and no layout between them. -/
  | compound
deriving DecidableEq, Repr

/-- The kind of each rule. -/
def kind : Rule → Kind
  | whitespace | comment | identChar | expression | primaryExpression | literal => .silent
  | kwLet | kwFn | kwReturn | kwPrint | kwIf | kwElse | keyword | identifier | assignOperator
  | orOperator | andOperator | nilLiteral | booleanLiteral | numericLiteral | stringCharacters =>
    .atomic
  | stringLiteral => .compound
  | _ => .normal

/-- A rule calls, without consuming a character first, only rules of smaller rank. -/
def rank : Rule → Nat
  | identifier | literal | functionExpression | functionDeclaration | variableDeclaration
  | printStatement | returnStatement | ifStatement => 1
  | primaryExpression | assignmentExpression => 2
  | callExpression => 3
  | unaryExpression => 4
  | multiplicativeExpression => 5
  | additiveExpression => 6
  | relationalExpression => 7
  | equalityExpression => 8
  | logicalAndExpression => 9
  | logicalOrExpression => 10
  | expression => 11
  | expressionStatement => 12
  | statement => 13
  | script => 14
  | _ => 0

/-- A rank above that of every rule. -/
def topRank : Nat := 15

/-- Whether every match of a rule consumes at least one character. -/
def consumes : Rule → Bool
  | endOfInput | stringCharacters | script => false
  | _ => true

end Rule

end Scoped.Grammar
