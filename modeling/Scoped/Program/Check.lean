import Scoped.Error
import Std.Data.TreeMap

/-!
# The check before a run

Two mistakes are found without running a program : a function with two parameters of one
name, and a local variable that is read in its own initializer. A variable is local inside
a block or a function body; variables at the top level, also those in the branches of an
`if`, are left to fail or not when the program runs. Reading the name inside a function
expression in the initializer is no mistake, since the function is called later, and
neither is assigning to it.

The check walks through the program in order and keeps a stack of the local scopes around
it. A scope notes the names that were declared in it, and of each whether its initializer
is still being checked. Only the innermost scope is ever looked at.
-/

namespace Scoped

/-- The local scopes around a place, the innermost first. Each has the names declared in it so
far, with `false` for a name whose initializer is being checked. -/
abbrev Nesting := List (Std.TreeMap String Bool)

namespace Nesting

/-- Inside a new scope. -/
def enter (n : Nesting) : Nesting := {} :: n

/-- Outside the innermost scope. -/
def leave (n : Nesting) : Nesting := n.tail

/-- Notes a name in the innermost scope. Outside all local scopes no name is noted. -/
def note (x : String) (ready : Bool) : Nesting → Nesting
  | [] => []
  | names :: n => names.insert x ready :: n

/-- Whether the innermost scope has a name. -/
def has (n : Nesting) (x : String) : Bool := n.head?.any (·.contains x)

/-- Whether the initializer of a name of the innermost scope is being checked. -/
def initializes (n : Nesting) (x : String) : Bool := (n.head?.bind (·[x]?)).any (!·)

end Nesting

/-- Notes the parameters of a function. No two of them may have one name. -/
def Ident.checkParams : List Ident → Nesting → Except Error Nesting
  | [], n => .ok n
  | p :: ps, n =>
    if n.has p.name then .error ⟨.scriptError (.duplicateParameter p.name), p.span⟩
    else checkParams ps (n.note p.name true)

mutual

/-- Checks an expression. -/
def Expr.check : Expr → Nesting → Except Error Nesting
  | .literal .., n => .ok n
  | .ident id, n =>
    if n.initializes id.name then .error ⟨.scriptError (.readInInitializer id.name), id.span⟩
    else .ok n
  | .assign _ _ e, n | .unary _ _ e, n => e.check n
  | .binary _ _ a b, n | .logical _ _ a b, n => do
    let n ← a.check n
    b.check n
  | .call _ f args, n => do
    let n ← f.check n
    Expr.checkAll args n
  | .function d, n => d.check n

/-- Checks expressions in order. -/
def Expr.checkAll : List Expr → Nesting → Except Error Nesting
  | [], n => .ok n
  | e :: es, n => do
    let n ← e.check n
    Expr.checkAll es n

/-- Checks a statement, and notes the name that it declares. The name of a function counts as
initialized in its own body. -/
def Stmt.check : Stmt → Nesting → Except Error Nesting
  | .expr _ e, n | .print _ e, n | .ret _ (some e), n => e.check n
  | .ret _ none, n => .ok n
  | .bind _ id none, n => .ok ((n.note id.name false).note id.name true)
  | .bind _ id (some e), n => do
    let n ← e.check (n.note id.name false)
    return n.note id.name true
  | .block _ body, n => do
    let n ← Stmt.checkAll body n.enter
    return n.leave
  | .function d, n =>
    match d.id with
    | some id => d.check (n.note id.name true)
    | none => d.check n
  | .cond _ test a none, n => do
    let n ← test.check n
    a.check n
  | .cond _ test a (some b), n => do
    let n ← test.check n
    let n ← a.check n
    b.check n

/-- Checks statements in order. -/
def Stmt.checkAll : List Stmt → Nesting → Except Error Nesting
  | [], n => .ok n
  | s :: ss, n => do
    let n ← s.check n
    Stmt.checkAll ss n

/-- Checks the parameters and the body of a function, in a scope of their own. -/
def FunctionDef.check : FunctionDef → Nesting → Except Error Nesting
  | .mk _ _ params _ body, n => do
    let n ← Ident.checkParams params n.enter
    let n ← Stmt.checkAll body n
    return n.leave

end

/-- Checks a program, from outside all local scopes. -/
def Program.check (p : Program) : Except Error Unit := do
  let _ ← Stmt.checkAll p.body []
  return ()

end Scoped
