import Scoped.Number.Decimal

/-!
# Numbers

A number is a 64-bit integer or a double. Two integers combine to an integer, exactly or
not at all : an operation whose result is out of range ends with the operands as an
`Overflow`. A mix of the two kinds is computed in doubles. Equality and order are by
numeric value, an integer being rounded to a double where it meets one.
-/

namespace Scoped

/-- A number of the language. -/
inductive Number where
  | int (n : Int64)
  | float (x : Float)

/-- The operands of an operation on integers whose result is out of range. -/
structure Overflow where
  left : Int
  right : Int
deriving DecidableEq, Repr

namespace Number

/-- The integer, if it fits into 64 bits. -/
def ofInt? (n : Int) : Option Number :=
  if Int64.minValue.toInt ≤ n ∧ n ≤ Int64.maxValue.toInt then some (int (Int64.ofInt n)) else none

/-- An integer that fits is the only one with its value. -/
theorem ofInt?_eq_some {n : Int} {m : Number} :
    ofInt? n = some m ↔ ∃ i : Int64, m = int i ∧ i.toInt = n := by
  unfold ofInt?
  constructor
  · intro h
    split at h <;> cases h
    next hn =>
    exact ⟨_, rfl, Int64.toInt_ofInt_of_le hn.1 (Int.lt_add_one_of_le hn.2)⟩
  · rintro ⟨i, rfl, rfl⟩
    rw [if_pos ⟨i.minValue_le_toInt, i.toInt_le⟩, Int64.ofInt_toInt]

/-- The number as a double. Integers are rounded to the nearest one. -/
def toFloat : Number → Float
  | int n => Float.ofInt n.toInt
  | float x => x

/-- Whether the number is the integer zero, which nothing can be divided by. -/
def isIntZero : Number → Bool
  | int n => n.toInt = 0
  | float _ => false

/-- Compares two numbers. NaN orders against nothing. -/
def compare? : Number → Number → Option Ordering
  | int a, int b => some (compare a.toInt b.toInt)
  | a, b => Binary64.compare? a.toFloat b.toFloat

/-- The result of an operation on two integers, if it fits into 64 bits. -/
def exactly (a b : Int64) (n : Int) : Except Overflow Number :=
  match ofInt? n with
  | some r => .ok r
  | none => .error ⟨a.toInt, b.toInt⟩

/-- Combines two integers by an operation on integers, or two numbers by one on doubles if
one of them is a double. -/
def combine (onInts : Int → Int → Int) (onFloats : Float → Float → Float) :
    Number → Number → Except Overflow Number
  | int a, int b => exactly a b (onInts a.toInt b.toInt)
  | a, b => .ok (float (onFloats a.toFloat b.toFloat))

/-- The sum. -/
def add : Number → Number → Except Overflow Number := combine (· + ·) (· + ·)

/-- The difference. -/
def sub : Number → Number → Except Overflow Number := combine (· - ·) (· - ·)

/-- The product. -/
def mul : Number → Number → Except Overflow Number := combine (· * ·) (· * ·)

/-- The quotient by a number other than the integer zero. That of two integers is an
integer if the division leaves no rest, and else a double. -/
def div : Number → Number → Except Overflow Number
  | int a, int b =>
    if a.toInt.tmod b.toInt = 0 then exactly a b (a.toInt.tdiv b.toInt)
    else .ok (float ((int a).toFloat / (int b).toFloat))
  | a, b => .ok (float (a.toFloat / b.toFloat))

/-- The remainder of the division by a number other than the integer zero, with the sign
of the dividend. There is none where the quotient of two integers is out of range. -/
def rem : Number → Number → Except Overflow Number
  | int a, int b => do
    let _ ← exactly a b (a.toInt.tdiv b.toInt)
    exactly a b (a.toInt.tmod b.toInt)
  | a, b => .ok (float (Binary64.remainder a.toFloat b.toFloat))

/-- The negated number, or the integer whose negation is out of range. -/
def neg : Number → Except Int Number
  | int n =>
    match ofInt? (-n.toInt) with
    | some r => .ok r
    | none => .error n.toInt
  | float x => .ok (float (-x))

/-- Whether two numbers are of one kind and equal. -/
def identical : Number → Number → Bool
  | int a, int b => a = b
  | float x, float y => Binary64.compare? x y = some .eq
  | _, _ => false

/-- The text of a number. -/
def render : Number → String
  | int n => toString n.toInt
  | float x => String.ofList (Decimal.render .plain x)

/-- The form of a number in diagnostics, which shows its kind. -/
def inspect : Number → String
  | int n => "Integer(" ++ toString n.toInt ++ ")"
  | float x => "Float(" ++ String.ofList (Decimal.render .diagnostic x) ++ ")"

end Number

end Scoped
