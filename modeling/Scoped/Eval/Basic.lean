import Scoped.Eval.Machine
import Scoped.Eval.Native
import Scoped.Operator

/-!
# Evaluation

`Expr.eval` and `Stmt.exec` follow the tree of the program, and take what a call does as a
parameter. `Host.call` supplies it : the number of calls that may still become active goes
down with every call, and a call that finds none left fails. So evaluation is total, with
no bound but the limit of the calls.
-/

namespace Scoped

/-- What a run takes from outside. -/
structure Host where
  /-- The time, in milliseconds. -/
  clock : Int64

/-- How a statement ended. -/
inductive Completion where
  | normal
  | returned (v : Value)

namespace Completion

/-- Whether the statements that follow are skipped. -/
def isAbrupt : Completion → Bool
  | normal => false
  | returned _ => true

/-- The value that was returned. -/
def value? : Completion → Option Value
  | normal => none
  | returned v => some v

end Completion

/-- The function that a value is. -/
@[noinline]
def Eval.callee (span : Span) (v : Value) : Eval Function :=
  match v with
  | .function f => pure f
  | v => throw ⟨.notCallable v.type.name, some span⟩

section

variable (call : Function → List Value → Eval Value)

mutual

/-- Evaluates an expression. The function of a call comes before its arguments, and these
from left to right. -/
def Expr.eval : Expr → Eval Value
  | .literal _ l => pure (.ofLiteral l)
  | .ident id => Eval.lookup id
  | .assign span target e => do
    let v ← e.eval
    Eval.assign span target.name v
  | .unary span op e => do
    let v ← e.eval
    Eval.ofExcept span (op.apply v)
  | .binary span op l r => do
    let a ← l.eval
    let b ← r.eval
    Eval.ofExcept span (op.apply a b)
  | .logical _ op l r => do
    let a ← l.eval
    if op.decidedBy a then pure a else r.eval
  | .call span f args => do
    let v ← f.eval
    let f ← Eval.callee span v
    let vs ← Expr.evalAll args
    Eval.orAt span (call f vs)
  | .function d => Eval.closure d

/-- Evaluates expressions from left to right. -/
def Expr.evalAll : List Expr → Eval (List Value)
  | [] => pure []
  | e :: es => do
    let v ← e.eval
    let vs ← Expr.evalAll es
    pure (v :: vs)

end

mutual

/-- Executes a statement. A block opens a scope; a branch of an `if` does not. -/
def Stmt.exec : Stmt → Eval Completion
  | .expr _ e => do
    let _ ← e.eval call
    pure .normal
  | .print _ e => do
    let v ← e.eval call
    Eval.print v.render
    pure .normal
  | .ret _ none => pure (.returned .nil)
  | .ret _ (some e) => do
    let v ← e.eval call
    pure (.returned v)
  | .block _ body => do
    let i ← Eval.openBlock
    Eval.inScope i (Stmt.execAll body)
  | .bind _ id none => do
    Eval.declare id .nil
    pure .normal
  | .bind _ id (some e) => do
    let v ← e.eval call
    Eval.declare id v
    pure .normal
  | .function d => do
    let f ← Eval.closure d
    match d.id with
    | some id => Eval.declare id f
    | none => pure ()
    pure .normal
  | .cond _ test a none => do
    let v ← test.eval call
    if v.truthy then a.exec else pure .normal
  | .cond _ test a (some b) => do
    let v ← test.eval call
    if v.truthy then a.exec else b.exec

/-- Executes statements in order, until one returns. -/
def Stmt.execAll : List Stmt → Eval Completion
  | [] => pure .normal
  | s :: ss => do
    match ← s.exec with
    | .normal => Stmt.execAll ss
    | .returned v => pure (.returned v)

end

/-- Runs the body of a function in a new scope inside the captured one, which binds the
parameters. A body that does not return has the value `nil`. -/
def FunctionDef.invoke (d : FunctionDef) (captured : ScopeId) (args : List Value) : Eval Value := do
  let frame ← Eval.openInside captured (.call d.name?)
  Eval.declareAll frame d.params args
  match ← Eval.inScope frame (Stmt.execAll call d.body) with
  | .normal => pure .nil
  | .returned v => pure v

end

namespace Host

/-- Calls a function while at most `budget` calls may become active. -/
def callWithin (host : Host) : (budget : Nat) → Function → List Value → Eval Value
  | budget, f, args =>
    if args.length ≠ f.arity then throw ⟨.arityMismatch f.arity args.length, none⟩
    else
      match budget with
      | 0 => fun m => .error ⟨.stackOverflow m.config.maxCallDepth, none⟩ m
      | budget + 1 =>
        match f with
        | .closure _ d captured =>
          Eval.inCall (d.invoke (host.callWithin budget) captured args)
        | .native _ n =>
          Eval.inCall fun m =>
            match n.apply host.clock args with
            | .ok v => .ok v m
            | .error c => .error ⟨c, none⟩ m

/-- Calls a function. -/
def call (host : Host) (f : Function) (args : List Value) : Eval Value := fun m =>
  host.callWithin m.remaining f args m

/-- Evaluates an expression. -/
def eval (host : Host) (e : Expr) : Eval Value := fun m =>
  e.eval (host.callWithin m.remaining) m

/-- Executes a statement. -/
def exec (host : Host) (s : Stmt) : Eval Completion := fun m =>
  s.exec (host.callWithin m.remaining) m

/-- Executes statements. -/
def execAll (host : Host) (ss : List Stmt) : Eval Completion := fun m =>
  Stmt.execAll (host.callWithin m.remaining) ss m

end Host

end Scoped
