import Scoped.Error

/-!
# Native functions

What the native functions compute. The clock is the host's : a run takes the time from it
as a number of milliseconds. Arguments beyond those that a native takes are ignored.
-/

namespace Scoped

/-- The value of a native function. -/
def Native.apply (clock : Int64) (n : Native) (args : List Value) : Except Cause Value :=
  match n, args with
  | str, v :: _ => .ok (.string v.render)
  | str, [] => .ok (.string "")
  | len, .string s :: _ => .ok (.number (.int (Int64.ofNat s.length)))
  | len, v :: _ => .error (.typeError (.lengthOf v.type))
  | len, [] => .error (.typeError .lengthOfNothing)
  | time, _ => .ok (.number (.int clock))
  | typeOf, v :: _ => .ok (.string v.type.name)
  | typeOf, [] => .ok (.string ValueType.nil.name)

end Scoped
