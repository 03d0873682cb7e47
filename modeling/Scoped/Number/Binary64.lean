/-!
# Double precision numbers, exactly

A finite double is `mantissa * 2 ^ exponent`, with a sign. What the language does with
doubles beyond adding, multiplying and dividing them is defined here on that form, in
exact arithmetic : their order and the remainder of a division.
-/

namespace Scoped.Binary64

/-- A double, taken apart. -/
inductive Parts where
  | nan
  | infinite (negative : Bool)
  | finite (negative : Bool) (mantissa : Nat) (exponent : Int)
deriving DecidableEq, Repr

/-- Whether the sign bit is set. -/
def isNegative (x : Float) : Bool := Nat.pow 2 63 ≤ x.toBits.toNat

/-- The bits below the sign bit. They grow with the absolute value. -/
def magnitude (x : Float) : Nat := x.toBits.toNat % Nat.pow 2 63

/-- The magnitude of the infinities. Only that of NaN is greater. -/
def infinity : Nat := 2047 * Nat.pow 2 52

/-- Takes a double apart. Doubles with the least exponent have no leading one. -/
def parts (x : Float) : Parts :=
  if infinity < magnitude x then .nan
  else if magnitude x = infinity then .infinite (isNegative x)
  else
    let field : Nat := magnitude x / Nat.pow 2 52
    let fraction : Nat := magnitude x % Nat.pow 2 52
    if field = 0 then .finite (isNegative x) fraction (-1074)
    else .finite (isNegative x) (fraction + Nat.pow 2 52) ((field : Int) - 1075)

/-- The position of a double in the order of the numbers. Both zeros have the same, and
NaN has none. -/
def position (x : Float) : Option Int :=
  if infinity < magnitude x then none
  else some (if isNegative x then -(magnitude x : Int) else magnitude x)

/-- Compares two doubles. NaN orders against nothing. -/
def compare? (x y : Float) : Option Ordering :=
  match position x, position y with
  | some a, some b => some (compare a b)
  | _, _ => none

/-- The double nearest to `mantissa * 2 ^ exponent`, with a sign. -/
def ofScaled (negative : Bool) (mantissa : Nat) (exponent : Int) : Float :=
  let x :=
    if exponent < 0 then
      Float.ofScientific (mantissa * Nat.pow 5 exponent.natAbs) true exponent.natAbs
    else Float.ofScientific (mantissa * Nat.pow 2 exponent.toNat) false 0
  if negative then -x else x

/-- The result of an operation that has none. -/
def nan : Float := 0.0 / 0.0

/-- The remainder of the division of two doubles that rounds toward zero. It is exact, and
has the sign of the dividend. -/
def remainder (x y : Float) : Float :=
  match parts x, parts y with
  | .finite negative m e, .finite _ n f =>
    if n = 0 then nan
    else
      let least := min e f
      let dividend := m * Nat.pow 2 (e - least).toNat
      let divisor := n * Nat.pow 2 (f - least).toNat
      ofScaled negative (dividend % divisor) least
  | .finite .., .infinite _ => x
  | _, _ => nan

end Scoped.Binary64
