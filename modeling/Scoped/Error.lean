import Scoped.Value

/-!
# Errors

An error has a cause and, where it is known, the span that it arose at. `Cause.message`
has the wording of every cause.
-/

namespace Scoped

/-- What can be wrong with operands and arguments. -/
inductive TypeFault where
  | negationOverflow (n : Int)
  | overflow (op : BinaryOp) (left right : Int)
  | operand (op : UnaryOp) (type : ValueType)
  | operands (op : BinaryOp) (left right : ValueType)
  | divisionByZero
  | moduloByZero
  | lengthOf (type : ValueType)
  | lengthOfNothing
  /-- A fault that a host describes in its own words. -/
  | other (text : String)

/-- The wording of a type fault. -/
def TypeFault.message : TypeFault → String
  | negationOverflow n => "integer overflow in -" ++ toString n
  | overflow op a b =>
    "integer overflow in " ++ toString a ++ " " ++ op.symbol ++ " " ++ toString b
  | operand op t => "bad operand type for unary " ++ op.symbol ++ ": " ++ t.name
  | operands op s t =>
    "unsupported operand types for " ++ op.symbol ++ ": " ++ s.name ++ " and " ++ t.name
  | divisionByZero => "division by zero"
  | moduloByZero => "modulo by zero"
  | lengthOf t => "len expects a string, found " ++ t.name
  | lengthOfNothing => "len expects a string"
  | other text => text

/-- What can be wrong with the shape of a match. -/
inductive Misshape where
  /-- A node that has to be there is not. -/
  | missingChild
  | notStatement
  | unknownStatement
  | unexpectedPart
  | withoutBody
  | unknownExpression
  | unknownUnary
  | unknownLogical
  | unknownBinary
  | unknownLiteral
  | malformedNumber

/-- The wording of a fault of shape. -/
def Misshape.message : Misshape → String
  | missingChild => "missing child"
  | notStatement => "expected a statement"
  | unknownStatement => "unknown statement"
  | unexpectedPart => "unexpected function part"
  | withoutBody => "function without a body"
  | unknownExpression => "unknown expression"
  | unknownUnary => "unknown unary operator"
  | unknownLogical => "unknown logical operator"
  | unknownBinary => "unknown binary operator"
  | unknownLiteral => "unknown literal"
  | malformedNumber => "malformed number"

/-- What can be wrong with a script before it runs. -/
inductive ScriptFault where
  /-- The script does not match the grammar. -/
  | unmatched (report : String)
  /-- An integer literal does not fit into 64 bits. -/
  | oversized
  /-- A node of a match is not shaped as the grammar shapes it. -/
  | misshapen (rule : String) (shape : Misshape)
  /-- A match without a node. -/
  | noScript
  | duplicateParameter (name : String)
  | readInInitializer (name : String)
  /-- A fault that a host describes in its own words. -/
  | other (text : String)

/-- The wording of a script fault. -/
def ScriptFault.message : ScriptFault → String
  | unmatched report => report
  | oversized => "Unexpected state reached [numeric_literal] - integer literal out of range"
  | misshapen rule shape => "Unexpected state reached [" ++ rule ++ "] - " ++ shape.message
  | noScript => "Parser produced no script"
  | duplicateParameter x => "duplicate parameter '" ++ x ++ "'"
  | readInInitializer x => "can't read local variable '" ++ x ++ "' in its own initializer"
  | other text => text

/-- Why something failed. -/
inductive Cause where
  | undefinedVariable (name : String)
  | notCallable (what : String)
  | arityMismatch (expected found : Nat)
  | typeError (fault : TypeFault)
  | redeclaration (name : String)
  | stackOverflow (limit : Nat)
  | scriptError (fault : ScriptFault)

/-- The wording of a cause. -/
def Cause.message : Cause → String
  | undefinedVariable x => "undefined variable '" ++ x ++ "'"
  | notCallable what => "can only call functions, found " ++ what
  | arityMismatch expected found =>
    "expected " ++ toString expected ++ " arguments but got " ++ toString found
  | typeError fault => "type error: " ++ fault.message
  | redeclaration x => "'" ++ x ++ "' is already defined in this scope"
  | stackOverflow limit => "stack overflow: call depth exceeded " ++ toString limit
  | scriptError fault => "syntax error: " ++ fault.message

/-- A failure, with the span that it arose at if that is known. -/
structure Error where
  cause : Cause
  span : Option Span

namespace Error

/-- The error at a span, whatever span it had. -/
def located (e : Error) (s : Span) : Error := { e with span := some s }

/-- The error at a span, unless it has one already. -/
def locatedIfNot (e : Error) (s : Span) : Error := { e with span := e.span.or (some s) }

/-- The wording of an error : that of its cause, and the span. -/
def message (e : Error) : String :=
  match e.span with
  | some s => e.cause.message ++ " at " ++ s.render
  | none => e.cause.message

end Error

end Scoped
