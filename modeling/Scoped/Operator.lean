import Scoped.Error

/-!
# Operators

What the operators of the language compute. Their failures have no span : the evaluator
adds that of the expression.
-/

namespace Scoped

/-- The value of an arithmetic operation. -/
def BinaryOp.outcome (op : BinaryOp) : Except Overflow Number → Except Cause Value
  | .ok n => .ok (.number n)
  | .error o => .error (.typeError (.overflow op o.left o.right))

namespace BinaryOp

/-- The result of an arithmetic operator on two numbers. -/
def arithmetic (op : BinaryOp) (f : Number → Number → Except Overflow Number) (a b : Value) :
    Except Cause Value :=
  match a, b with
  | .number m, .number n => op.outcome (f m n)
  | _, _ => .error (.typeError (.operands op a.type b.type))

/-- The result of a division operator, which the integer zero on the right makes fail with
`zero`. -/
def division (op : BinaryOp) (zero : TypeFault) (f : Number → Number → Except Overflow Number)
    (a b : Value) : Except Cause Value :=
  match a, b with
  | .number m, .number n => if n.isIntZero then .error (.typeError zero) else op.outcome (f m n)
  | _, _ => .error (.typeError (.operands op a.type b.type))

/-- The result of an order operator. Every test fails where NaN is involved. -/
def ordering (op : BinaryOp) (test : Ordering → Bool) (a b : Value) : Except Cause Value :=
  match a.compare? b with
  | some o => .ok (.bool (o.any test))
  | none => .error (.typeError (.operands op a.type b.type))

/-- A sum, or the texts of two values joined if one of them is a string. -/
def sum (a b : Value) : Except Cause Value :=
  match a, b with
  | .string s, b => .ok (.string (s ++ b.render))
  | a, .string t => .ok (.string (a.render ++ t))
  | a, b => arithmetic add Number.add a b

/-- The value of an operator on two operands. -/
def apply (op : BinaryOp) (a b : Value) : Except Cause Value :=
  match op with
  | add => sum a b
  | sub => arithmetic sub Number.sub a b
  | mul => arithmetic mul Number.mul a b
  | div => division div .divisionByZero Number.div a b
  | rem => division rem .moduloByZero Number.rem a b
  | lt => ordering lt (· == .lt) a b
  | gt => ordering gt (· == .gt) a b
  | le => ordering le (· != .gt) a b
  | ge => ordering ge (· != .lt) a b
  | eq => .ok (.bool (a.equal b))
  | ne => .ok (.bool (!a.equal b))

end BinaryOp

/-- The value of a negation. -/
def UnaryOp.outcome : Except Int Number → Except Cause Value
  | .ok n => .ok (.number n)
  | .error n => .error (.typeError (.negationOverflow n))

/-- The value of an operator before its operand. -/
def UnaryOp.apply (op : UnaryOp) (a : Value) : Except Cause Value :=
  match op with
  | not => .ok (.bool (!a.truthy))
  | minus =>
    match a with
    | .number n => UnaryOp.outcome n.neg
    | a => .error (.typeError (.operand minus a.type))

/-- Whether the first operand is the result already. -/
def LogicalOp.decidedBy (op : LogicalOp) (a : Value) : Bool :=
  match op with
  | or => a.truthy
  | and => !a.truthy

end Scoped
