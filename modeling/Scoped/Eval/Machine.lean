import Scoped.Config

/-!
# The machine

A run works on a machine : the store, the scope that it is in, the configuration, the
number of calls that are active, and the lines that were printed. `Eval` is a computation
that changes the machine and ends with a value or with an error; the machine is there in
both cases.

`inScope` and `inCall` enclose a computation, and set the machine back whichever way it
ends.
-/

namespace Scoped

/-- The state of a run. -/
structure Machine where
  store : Store
  /-- The scope that the run is in. -/
  scope : ScopeId
  config : Config
  /-- The number of active calls. -/
  depth : Nat
  /-- The printed lines, in order. -/
  printed : Array String

namespace Machine

/-- The machine in another scope. -/
@[noinline]
def enter (m : Machine) (i : ScopeId) : Machine := { m with scope := i }

/-- The machine with one more active call. -/
@[noinline]
def deeper (m : Machine) : Machine := { m with depth := m.depth + 1 }

/-- The machine with one active call less. -/
@[noinline]
def shallower (m : Machine) : Machine := { m with depth := m.depth - 1 }

/-- The number of calls that may still become active. -/
def remaining (m : Machine) : Nat := m.config.maxCallDepth - m.depth

end Machine

/-- A computation of a run. -/
abbrev Eval (α : Type) := EStateM Error Machine α

namespace Eval

/-- A value, or its cause of failure at a span. -/
@[inline]
def ofExcept (span : Span) (r : Except Cause Value) : Eval Value := fun m =>
  match r with
  | .ok v => .ok v m
  | .error c => .error ⟨c, some span⟩ m

/-- A computation whose errors arise at a span unless they have one. -/
@[inline]
def orAt (span : Span) (x : Eval Value) : Eval Value := fun m =>
  match x m with
  | .ok v m => .ok v m
  | .error e m => .error (e.locatedIfNot span) m

/-- The value of a name. -/
@[noinline]
def lookup (id : Ident) : Eval Value := fun m =>
  match m.store.get m.scope id.name with
  | .ok v => .ok v m
  | .error c => .error ⟨c, id.span⟩ m

/-- Gives a name another value. -/
@[noinline]
def assign (span : Span) (x : String) (v : Value) : Eval Value := fun m =>
  match m.store.resolve? m.scope x with
  | some i => .ok v { m with store := m.store.set i x v }
  | none => .error ⟨.undefinedVariable x, span⟩ m

/-- Declares a name in a scope. -/
@[noinline]
def declareIn (i : ScopeId) (id : Ident) (v : Value) : Eval Unit := fun m =>
  if m.store.refuses i id.name then .error ⟨.redeclaration id.name, id.span⟩ m
  else .ok () { m with store := m.store.bind i id.name v }

/-- Declares a name in the scope that the run is in. -/
@[noinline]
def declare (id : Ident) (v : Value) : Eval Unit := fun m => declareIn m.scope id v m

/-- Declares names with their values, in order. -/
def declareAll (i : ScopeId) : List Ident → List Value → Eval Unit
  | id :: ids, v :: vs => do
    declareIn i id v
    declareAll i ids vs
  | _, _ => pure ()

/-- Makes a function value that captures the scope that the run is in. -/
@[noinline]
def closure (d : FunctionDef) : Eval Value := fun m =>
  let v := .function (.closure m.store.nextIdentity d m.scope)
  .ok v { m with store := m.store.takeIdentity }

/-- Opens a scope inside another one. -/
@[noinline]
def openInside (i : ScopeId) (kind : ScopeKind) : Eval ScopeId := fun m =>
  let j := m.store.nextScope
  .ok j { m with store := m.store.openInside i kind }

/-- Opens a scope inside the one that the run is in. -/
@[noinline]
def openBlock : Eval ScopeId := fun m => openInside m.scope .block m

/-- Prints a line. -/
@[noinline]
def print (line : String) : Eval Unit := fun m =>
  .ok () { m with printed := m.printed.push line }

/-- A computation in a scope. The run is back in its own scope afterwards. -/
@[inline]
def inScope {α : Type} (i : ScopeId) (x : Eval α) : Eval α := fun m =>
  let outside := m.scope
  match x (m.enter i) with
  | .ok a m => .ok a (m.enter outside)
  | .error e m => .error e (m.enter outside)

/-- A computation that counts as a call while it lasts. -/
@[inline]
def inCall {α : Type} (x : Eval α) : Eval α := fun m =>
  match x m.deeper with
  | .ok a m => .ok a m.shallower
  | .error e m => .error e m.shallower

end Eval

end Scoped
