import Scoped.Program.Literal
import Scoped.Store.Basic
import Scoped.Text.Blank

/-!
# Configuration

An interpreter is configured by two variables, which a host looks up by name. A variable
that is missing or malformed leaves its field at the default, and does not touch the other
field.
-/

namespace Scoped

namespace Redeclaration

/-- A policy as it is written. -/
def name : Redeclaration → String
  | allow => "allow"
  | forbid => "forbid"

/-- A text without the white space around it, in lower case as far as it is ASCII. -/
def normalize (s : String) : String := String.ofList ((Text.trim s.toList).map Char.toLower)

/-- The policy that a text names. -/
def ofText? (s : String) : Option Redeclaration :=
  match normalize s with
  | "allow" => some allow
  | "forbid" => some forbid
  | _ => none

/-- The report on a text that names no policy. -/
def unknownMessage (s : String) : String :=
  "unknown redeclaration policy '" ++ normalize s ++ "'"

end Redeclaration

/-- How an interpreter behaves. -/
structure Config where
  /-- Whether a name may be declared twice in one scope. -/
  redeclaration : Redeclaration
  /-- The number of calls that may be active at one time. -/
  maxCallDepth : Nat
deriving DecidableEq, Repr

namespace Config

/-- What holds where nothing else is said. -/
def standard : Config := ⟨.allow, 512⟩

/-- The variable that names the policy. -/
def redeclarationVar : String := "IX_REDECLARATION"

/-- The variable that limits the calls. -/
def maxCallDepthVar : String := "IX_MAX_CALL_DEPTH"

/-- The digits of a number that may have a plus sign before it. -/
def unsigned : List Char → List Char
  | '+' :: cs => cs
  | cs => cs

/-- The limit that a text denotes : a positive number that fits into 64 bits. -/
def depthOfText? (s : String) : Option Nat :=
  let ds := unsigned (Text.trim s.toList)
  let n := Literal.digitsValue ds
  if !ds.isEmpty && ds.all Char.isDigit && 0 < n && n < Nat.pow 2 64 then some n else none

/-- The configuration that a host's variables describe. -/
def ofLookup (lookup : String → Option String) : Config :=
  { redeclaration :=
      ((lookup redeclarationVar).bind Redeclaration.ofText?).getD standard.redeclaration
    maxCallDepth := ((lookup maxCallDepthVar).bind depthOfText?).getD standard.maxCallDepth }

end Config

end Scoped
