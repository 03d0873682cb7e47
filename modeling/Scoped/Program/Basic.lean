import Scoped.Number.Basic
import Scoped.Span

/-!
# Programs

The tree of a script. Every node keeps the span that it was read from; `same` compares
trees with their spans.
-/

namespace Scoped

/-- A name at its place. -/
structure Ident where
  name : String
  span : Span
deriving DecidableEq, Repr

/-- What a literal denotes. -/
inductive Literal where
  | nil
  | bool (b : Bool)
  | number (n : Number)
  | string (s : String)

/-- The operators before one operand. -/
inductive UnaryOp where
  | minus
  | not
deriving DecidableEq, Repr

/-- The operators between two operands that are both evaluated. -/
inductive BinaryOp where
  | add
  | sub
  | mul
  | div
  | rem
  | lt
  | gt
  | le
  | ge
  | eq
  | ne
deriving DecidableEq, Repr

/-- The operators whose second operand is evaluated only if the first one leaves the result open. -/
inductive LogicalOp where
  | and
  | or
deriving DecidableEq, Repr

mutual

/-- An expression. -/
inductive Expr where
  | literal (span : Span) (value : Literal)
  | ident (id : Ident)
  | assign (span : Span) (target : Ident) (value : Expr)
  | unary (span : Span) (op : UnaryOp) (operand : Expr)
  | binary (span : Span) (op : BinaryOp) (left right : Expr)
  | logical (span : Span) (op : LogicalOp) (left right : Expr)
  | call (span : Span) (callee : Expr) (args : List Expr)
  | function (definition : FunctionDef)

/-- A statement. -/
inductive Stmt where
  | expr (span : Span) (value : Expr)
  | print (span : Span) (value : Expr)
  | ret (span : Span) (value : Option Expr)
  | block (span : Span) (body : List Stmt)
  | bind (span : Span) (id : Ident) (init : Option Expr)
  | function (definition : FunctionDef)
  | cond (span : Span) (test : Expr) (consequent : Stmt) (alternative : Option Stmt)

/-- A function, declared under a name or written as an expression. -/
inductive FunctionDef where
  | mk (span : Span) (id : Option Ident) (params : List Ident) (bodySpan : Span) (body : List Stmt)

end

/-- A script. -/
structure Program where
  span : Span
  body : List Stmt

/-! ## Operators -/

/-- An operator as it is written. -/
def BinaryOp.symbol : BinaryOp → String
  | .add => "+"
  | .sub => "-"
  | .mul => "*"
  | .div => "/"
  | .rem => "%"
  | .lt => "<"
  | .gt => ">"
  | .le => "<="
  | .ge => ">="
  | .eq => "=="
  | .ne => "!="

/-- The operators between two operands. -/
def BinaryOp.all : List BinaryOp := [.add, .sub, .mul, .div, .rem, .lt, .gt, .le, .ge, .eq, .ne]

/-- The operator of a symbol. -/
def BinaryOp.ofSymbol? (s : String) : Option BinaryOp := BinaryOp.all.find? (·.symbol = s)

/-- An operator as it is written. -/
def UnaryOp.symbol : UnaryOp → String
  | .minus => "-"
  | .not => "!"

/-- The operator of a symbol. -/
def UnaryOp.ofSymbol? (s : String) : Option UnaryOp := [UnaryOp.minus, .not].find? (·.symbol = s)

/-- An operator as it is written. -/
def LogicalOp.symbol : LogicalOp → String
  | .and => "and"
  | .or => "or"

/-- The operator of a symbol. -/
def LogicalOp.ofSymbol? (s : String) : Option LogicalOp := [LogicalOp.and, .or].find? (·.symbol = s)

/-- An operator between two operands. -/
inductive Connective where
  | binary (op : BinaryOp)
  | logical (op : LogicalOp)
deriving DecidableEq, Repr

/-- Two operands joined by an operator. -/
def Connective.join (c : Connective) (span : Span) (l r : Expr) : Expr :=
  match c with
  | binary op => .binary span op l r
  | logical op => .logical span op l r

/-! ## Functions -/

namespace FunctionDef

/-- Where the function stands. -/
def span : FunctionDef → Span
  | mk s .. => s

/-- The name that the function is declared under. -/
def id : FunctionDef → Option Ident
  | mk _ i .. => i

/-- The parameters. -/
def params : FunctionDef → List Ident
  | mk _ _ ps .. => ps

/-- Where the body stands. -/
def bodySpan : FunctionDef → Span
  | mk _ _ _ s _ => s

/-- The statements of the body. -/
def body : FunctionDef → List Stmt
  | mk _ _ _ _ b => b

/-- The name of the function, if it has one. -/
def name? (f : FunctionDef) : Option String := f.id.map Ident.name

/-- The number of arguments that the function takes. -/
def arity (f : FunctionDef) : Nat := f.params.length

end FunctionDef

/-! ## Equality -/

/-- Whether two literals are equal. NaN differs from itself. -/
def Literal.same : Literal → Literal → Bool
  | nil, nil => true
  | bool a, bool b => a = b
  | number a, number b => a.identical b
  | string a, string b => a = b
  | _, _ => false

mutual

/-- Whether two expressions are equal, spans included. -/
def Expr.same : Expr → Expr → Bool
  | .literal s a, .literal t b => s = t && a.same b
  | .ident a, .ident b => a = b
  | .assign s i a, .assign t j b => s = t && i = j && a.same b
  | .unary s o a, .unary t p b => s = t && o = p && a.same b
  | .binary s o a b, .binary t p c d => s = t && o = p && a.same c && b.same d
  | .logical s o a b, .logical t p c d => s = t && o = p && a.same c && b.same d
  | .call s a as, .call t b bs => s = t && a.same b && Expr.sameAll as bs
  | .function f, .function g => f.same g
  | _, _ => false

/-- Whether two lists of expressions are equal. -/
def Expr.sameAll : List Expr → List Expr → Bool
  | [], [] => true
  | a :: as, b :: bs => a.same b && Expr.sameAll as bs
  | _, _ => false

/-- Whether two optional expressions are equal. -/
def Expr.sameOption : Option Expr → Option Expr → Bool
  | none, none => true
  | some a, some b => a.same b
  | _, _ => false

/-- Whether two statements are equal, spans included. -/
def Stmt.same : Stmt → Stmt → Bool
  | .expr s a, .expr t b => s = t && a.same b
  | .print s a, .print t b => s = t && a.same b
  | .ret s a, .ret t b => s = t && Expr.sameOption a b
  | .block s as, .block t bs => s = t && Stmt.sameAll as bs
  | .bind s i a, .bind t j b => s = t && i = j && Expr.sameOption a b
  | .function f, .function g => f.same g
  | .cond s a b c, .cond t d e f => s = t && a.same d && b.same e && Stmt.sameOption c f
  | _, _ => false

/-- Whether two lists of statements are equal. -/
def Stmt.sameAll : List Stmt → List Stmt → Bool
  | [], [] => true
  | a :: as, b :: bs => a.same b && Stmt.sameAll as bs
  | _, _ => false

/-- Whether two optional statements are equal. -/
def Stmt.sameOption : Option Stmt → Option Stmt → Bool
  | none, none => true
  | some a, some b => a.same b
  | _, _ => false

/-- Whether two functions are equal, spans included. -/
def FunctionDef.same : FunctionDef → FunctionDef → Bool
  | .mk s i ps t b, .mk s' i' ps' t' b' =>
    s = s' && i = i' && ps = ps' && t = t' && Stmt.sameAll b b'

end

/-- Whether two programs are equal, spans included. -/
def Program.same (p q : Program) : Bool := p.span = q.span && Stmt.sameAll p.body q.body

end Scoped
