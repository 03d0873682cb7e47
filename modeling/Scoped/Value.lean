import Scoped.Program.Basic
import Scoped.Text.Quoted

/-!
# Values

The values that programs compute with. A function value has an identity : two function
values are equal only if they were made by the same evaluation of a declaration or a
function expression, or by the same registration of a native function. A closure captures
the scope that it was made in.
-/

namespace Scoped

/-- The number of a scope in its store. -/
abbrev ScopeId := Nat

/-- The functions that every program starts with. -/
inductive Native where
  | str
  | len
  | time
  | typeOf
deriving DecidableEq, Repr

namespace Native

/-- The natives in the order of their registration. -/
def all : List Native := [str, len, time, typeOf]

/-- The name that a native is bound to. -/
def name : Native → String
  | str => "str"
  | len => "len"
  | time => "time"
  | typeOf => "type_of"

/-- The native of a name. -/
def ofName? (s : String) : Option Native := all.find? (·.name = s)

/-- The number of arguments that a native takes. -/
def arity : Native → Nat
  | str | len | typeOf => 1
  | time => 0

end Native

/-- A function value. The identities are handed out by the store. -/
inductive Function where
  | closure (identity : Nat) (definition : FunctionDef) (scope : ScopeId)
  | native (identity : Nat) (native : Native)

namespace Function

/-- What tells two function values apart. -/
def identity : Function → Nat
  | closure i .. | native i _ => i

/-- The number of arguments that the function takes. -/
def arity : Function → Nat
  | closure _ d _ => d.arity
  | native _ n => n.arity

/-- The name of the function, if it has one. -/
def name? : Function → Option String
  | closure _ d _ => d.name?
  | native _ n => some n.name

/-- The text of a function. -/
def render : Function → String
  | closure _ d _ =>
    match d.name? with
    | some n => "<fn " ++ n ++ ">"
    | none => "<fn>"
  | native _ n => "<native fn " ++ n.name ++ ">"

end Function

/-- The types of values. -/
inductive ValueType where
  | nil
  | boolean
  | number
  | string
  | function
deriving DecidableEq, Repr

/-- The name of a type. -/
def ValueType.name : ValueType → String
  | nil => "nil"
  | boolean => "boolean"
  | number => "number"
  | string => "string"
  | function => "function"

/-- A value. -/
inductive Value where
  | nil
  | bool (b : Bool)
  | number (n : Number)
  | string (s : String)
  | function (f : Function)

namespace Value

/-- The value that a literal denotes. -/
def ofLiteral : Literal → Value
  | .nil => nil
  | .bool b => bool b
  | .number n => number n
  | .string s => string s

/-- The type of a value. -/
def type : Value → ValueType
  | nil => .nil
  | bool _ => .boolean
  | number _ => .number
  | string _ => .string
  | function _ => .function

/-- All values but `nil` and `false` pass a test. -/
def truthy : Value → Bool
  | nil | bool false => false
  | _ => true

/-- The text of a value, as it is printed and concatenated. -/
def render : Value → String
  | nil => "nil"
  | bool true => "true"
  | bool false => "false"
  | number n => n.render
  | string s => s
  | function f => f.render

/-- The form of a value in diagnostics, which shows its type. -/
def inspect : Value → String
  | nil => "Nil"
  | bool b => "Boolean(" ++ (bool b).render ++ ")"
  | number n => "Number(" ++ n.inspect ++ ")"
  | string s => "String(" ++ Text.quoted s ++ ")"
  | function f => "Function(" ++ f.render ++ ")"

/-- Equality of the language : numbers as they compare, an integer beside a double as the double
nearest to it, and functions by identity. -/
def equal : Value → Value → Bool
  | nil, nil => true
  | bool a, bool b => a = b
  | number a, number b => a.compare? b = some .eq
  | string a, string b => a = b
  | function f, function g => f.identity = g.identity
  | _, _ => false

/-- Equality that holds integers and doubles apart. -/
def identical : Value → Value → Bool
  | number a, number b => a.identical b
  | a, b => a.equal b

/-- Compares two numbers, or two strings by their code points. The outer `none` says that other
values have no order, the inner one that NaN orders against nothing. -/
def compare? : Value → Value → Option (Option Ordering)
  | number a, number b => some (a.compare? b)
  | string a, string b => some (some (compare a b))
  | _, _ => none

end Value

end Scoped
