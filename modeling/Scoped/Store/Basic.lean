import Scoped.Error
import Scoped.Store.Record

/-!
# The store of scopes

Scopes are shared and mutable : a closure keeps the scope that it was made in, and sees
what happens to it later. So scopes live in a store and are referred to by number. They
are numbered in the order of their creation and never removed. A scope was opened inside
its outer scope, which therefore has a smaller number, and `chain` follows the links
outward from a scope to a root.

The store also hands out the identities of function values.
-/

namespace Scoped

/-- Whether a name may be declared again in the scope that it is declared in. -/
inductive Redeclaration where
  | allow
  | forbid
deriving DecidableEq, Repr

/-- A scope. -/
structure Scope where
  outer : Option ScopeId
  policy : Redeclaration
  record : Record

/-- All scopes, and the next identity of a function value. -/
structure Store where
  scopes : Array Scope
  nextIdentity : Nat

namespace Store

/-- A store without scopes. -/
def empty : Store := ⟨#[], 0⟩

/-! ## Looking -/

/-- The record of a scope. -/
def record? (s : Store) (i : ScopeId) : Option Record := s.scopes[i]?.map Scope.record

/-- Whether a scope itself binds a name. -/
def binds (s : Store) (i : ScopeId) (x : String) : Bool := (s.record? i).any (·.has x)

/-- The outer scope of a scope. -/
def outer? (s : Store) (i : ScopeId) : Option ScopeId := s.scopes[i]?.bind Scope.outer

/-- The policy of a scope. -/
def policy (s : Store) (i : ScopeId) : Redeclaration := (s.scopes[i]?.map Scope.policy).getD .allow

/-- A scope, its outer scope, and so on to a root. A link to a scope that is not older is none. -/
def chain (s : Store) (i : ScopeId) : List ScopeId :=
  match s.outer? i with
  | none => [i]
  | some o => if o < i then i :: s.chain o else [i]
termination_by i

/-- The number of scopes around a scope. -/
def depth (s : Store) (i : ScopeId) : Nat := (s.chain i).length - 1

/-- The value of a name from a scope : the first one that a scope of its chain holds. -/
def get? (s : Store) (i : ScopeId) (x : String) : Option Value :=
  (s.chain i).findSome? fun j => (s.record? j).bind (·.get? x)

/-- The scope that a name refers to from a scope : the first of its chain that binds the name. -/
def resolve? (s : Store) (i : ScopeId) (x : String) : Option ScopeId :=
  (s.chain i).find? (s.binds · x)

/-- The names that a scope itself binds, by code point. -/
def names (s : Store) (i : ScopeId) : List String := ((s.record? i).map Record.names).getD []

/-- The name of the function that a scope was opened for. -/
def function? (s : Store) (i : ScopeId) : Option String := (s.record? i).bind Record.function?

/-- Whether declaring a name in a scope is refused. -/
def refuses (s : Store) (i : ScopeId) (x : String) : Bool :=
  s.policy i = .forbid && s.binds i x

/-! ## Changing -/

/-- Adds a scope. Its number is the number of scopes before. -/
def push (s : Store) (scope : Scope) : Store := { s with scopes := s.scopes.push scope }

/-- The number of the next scope. -/
def nextScope (s : Store) : ScopeId := s.scopes.size

/-- Opens a root scope. -/
def openRoot (s : Store) (policy : Redeclaration) : Store := s.push ⟨none, policy, .empty .block⟩

/-- Opens a scope inside another one, which hands its policy down. -/
def openInside (s : Store) (i : ScopeId) (kind : ScopeKind) : Store :=
  s.push ⟨some i, s.policy i, .empty kind⟩

/-- Binds a name in a scope, whatever its policy. -/
def bind (s : Store) (i : ScopeId) (x : String) (v : Value) : Store :=
  { s with scopes := s.scopes.modify i fun scope => { scope with record := scope.record.bind x v } }

/-- Gives a name another value in a scope, if the scope binds it. -/
def set (s : Store) (i : ScopeId) (x : String) (v : Value) : Store :=
  { s with scopes := s.scopes.modify i fun scope =>
      { scope with record := (scope.record.set? x v).getD scope.record } }

/-- Declares a name in a scope. -/
def define (s : Store) (i : ScopeId) (x : String) (v : Value) : Except Cause Store :=
  if s.refuses i x then .error (.redeclaration x) else .ok (s.bind i x v)

/-- The value of a name from a scope, or the failure to find it. -/
def get (s : Store) (i : ScopeId) (x : String) : Except Cause Value :=
  match s.get? i x with
  | some v => .ok v
  | none => .error (.undefinedVariable x)

/-- Gives the name another value in the scope that it refers to. -/
def assign (s : Store) (i : ScopeId) (x : String) (v : Value) : Except Cause Store :=
  match s.resolve? i x with
  | some j => .ok (s.set j x v)
  | none => .error (.undefinedVariable x)

/-- Hands an identity out. -/
def takeIdentity (s : Store) : Store := { s with nextIdentity := s.nextIdentity + 1 }

/-- Binds a fresh function value for each native in a scope. -/
def register (s : Store) (i : ScopeId) : Store :=
  Native.all.foldl
    (fun s n => s.takeIdentity.bind i n.name (.function (.native s.nextIdentity n))) s

end Store

end Scoped
