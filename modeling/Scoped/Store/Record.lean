import Scoped.Value
import Std.Data.HashMap

/-!
# Records

A record holds the bindings of one scope. They are kept in no order, and their names are sorted by
code point when they are asked for. The record of a call remembers the name of the function
that was called, and leaves everything else to the record inside it.
-/

namespace Scoped

/-- What a scope was opened for. -/
inductive ScopeKind where
  | block
  | call (function : Option String)
deriving DecidableEq, Repr

/-- The bindings of one scope. -/
structure DeclarativeRecord where
  bindings : Std.HashMap String Value

namespace DeclarativeRecord

/-- A record without bindings. -/
def empty : DeclarativeRecord := ⟨{}⟩

/-- The value bound to a name. -/
def get? (r : DeclarativeRecord) (x : String) : Option Value := r.bindings[x]?

/-- Whether a name is bound. -/
def has (r : DeclarativeRecord) (x : String) : Bool := r.bindings.contains x

/-- Binds a name, whether it is bound already or not. -/
def bind (r : DeclarativeRecord) (x : String) (v : Value) : DeclarativeRecord :=
  ⟨r.bindings.insert x v⟩

/-- Gives a bound name another value. -/
def set? (r : DeclarativeRecord) (x : String) (v : Value) : Option DeclarativeRecord :=
  match r.bindings[x]? with
  | some _ => some ⟨r.bindings.insert x v⟩
  | none => none

/-- The bound names, by code point. -/
def names (r : DeclarativeRecord) : List String :=
  r.bindings.keys.mergeSort fun x y => (compare x y).isLE

end DeclarativeRecord

/-- The record of a call. Its operations are those of the record inside it. -/
structure CallRecord where
  base : DeclarativeRecord
  function : Option String

namespace CallRecord

/-- The record of a call without bindings. -/
def empty (function : Option String) : CallRecord := ⟨.empty, function⟩

def get? (r : CallRecord) (x : String) : Option Value := r.base.get? x

def has (r : CallRecord) (x : String) : Bool := r.base.has x

def bind (r : CallRecord) (x : String) (v : Value) : CallRecord :=
  { r with base := r.base.bind x v }

def set? (r : CallRecord) (x : String) (v : Value) : Option CallRecord :=
  (r.base.set? x v).map ({ r with base := · })

def names (r : CallRecord) : List String := r.base.names

end CallRecord

/-- The record of a scope of any kind. -/
inductive Record where
  | declarative (r : DeclarativeRecord)
  | call (r : CallRecord)

namespace Record

/-- The record that a scope starts with. -/
def empty : ScopeKind → Record
  | .block => .declarative .empty
  | .call function => .call (.empty function)

def get? : Record → String → Option Value
  | declarative r, x => r.get? x
  | call r, x => r.get? x

def has : Record → String → Bool
  | declarative r, x => r.has x
  | call r, x => r.has x

def bind : Record → String → Value → Record
  | declarative r, x, v => .declarative (r.bind x v)
  | call r, x, v => .call (r.bind x v)

def set? : Record → String → Value → Option Record
  | declarative r, x, v => (r.set? x v).map .declarative
  | call r, x, v => (r.set? x v).map .call

def names : Record → List String
  | declarative r => r.names
  | call r => r.names

/-- The name of the function that the scope was opened for. -/
def function? : Record → Option String
  | declarative _ => none
  | call r => r.function

end Record

end Scoped
