import Scoped.Number.Binary64

/-!
# The shortest decimal of a double

A double is written with the fewest digits that read back to it, and among those with the
digits nearest to it. The reals that read as `m * 2 ^ q` form an interval that ends
halfway to the two neighbours of the double, and holds its ends if `m` is even. For each
number of digits the two decimals around the value are tested for membership, in exact
arithmetic.
-/

namespace Scoped

/-- A decimal : `0.d₁d₂… * 10 ^ point`, where the digits have no zero at their end. -/
structure Decimal where
  digits : List Char
  point : Int
deriving DecidableEq, Repr

namespace Decimal

/-- The reals that round to a positive double, in units of a common denominator : the
double is `value / unit`, and the interval goes from `low / unit` to `high / unit`. -/
structure Interval where
  low : Nat
  value : Nat
  high : Nat
  unit : Nat
  closed : Bool

/-- The interval of `m * 2 ^ q`. Below a power of two the neighbour is only half as far,
except at the least exponent. -/
def Interval.of (m : Nat) (q : Int) : Interval :=
  let below := if m = Nat.pow 2 52 && q ≠ -1074 then 1 else 2
  let scale := Nat.pow 2 q.toNat
  { low := (4 * m - below) * scale
    value := 4 * m * scale
    high := (4 * m + 2) * scale
    unit := 4 * Nat.pow 2 (-q).toNat
    closed := m % 2 = 0 }

/-- Whether `n * 10 ^ e` lies in the interval. -/
def Interval.contains (i : Interval) (n : Nat) (e : Int) : Bool :=
  let x := n * Nat.pow 10 e.toNat * i.unit
  let low := i.low * Nat.pow 10 (-e).toNat
  let high := i.high * Nat.pow 10 (-e).toNat
  if i.closed then low ≤ x && x ≤ high else low < x && x < high

/-- The value of the interval in units of `10 ^ e`. For the result `(n, rest, grid)` it is
`n + rest / grid`, and `rest` is less than `grid`. -/
def Interval.below (i : Interval) (e : Int) : Nat × Nat × Nat :=
  let grid := i.unit * Nat.pow 10 e.toNat
  let value := i.value * Nat.pow 10 (-e).toNat
  (value / grid, value % grid, grid)

/-- The multiple of `10 ^ e` nearest to the value that lies in the interval, if there is
one. Of two that are equally near, the greater. -/
def Interval.nearest? (i : Interval) (e : Int) : Option Nat :=
  let (n, rest, grid) := i.below e
  let up := grid ≤ 2 * rest
  let near := if up then n + 1 else n
  let far := if up then n else n + 1
  if i.contains near e then some near
  else if i.contains far e then some far
  else none

/-- Every positive double is greater than `10 ^ -places`. -/
def places : Nat := 400

/-- The exponent of the value : it is less than `10 ^ top` and not less than a tenth of that. -/
def Interval.top (i : Interval) : Int :=
  (Nat.toDigits 10 (i.value * Nat.pow 10 places / i.unit)).length - (places : Int)

/-- The first number of digits for which a decimal lies in the interval, and the decimal
as `n * 10 ^ e`. There is one with 17 digits at most. -/
def Interval.shortest (i : Interval) : Nat × Int :=
  let top := i.top
  match (List.range 17).findSome? fun k =>
      let e := top - (k + 1 : Nat)
      (i.nearest? e).map fun n => (n, e) with
  | some r => r
  | none => (0, 0)

/-- The decimal `n * 10 ^ e`. -/
def ofScaled (n : Nat) (e : Int) : Decimal :=
  let ds := Nat.toDigits 10 n
  ⟨(ds.reverse.dropWhile (· = '0')).reverse, ds.length + e⟩

/-- The shortest decimal of the positive double `m * 2 ^ q`. -/
def shortest (m : Nat) (q : Int) : Decimal :=
  let (n, e) := (Interval.of m q).shortest
  ofScaled n e

/-! ## Writing decimals -/

/-- How decimals are written. -/
structure Style where
  /-- Whether a decimal with this point is written without an exponent. -/
  positional : Int → Bool
  /-- What follows a whole number that is written without an exponent. -/
  whole : List Char

/-- The style of the language's own texts : never an exponent, and nothing after a whole number. -/
def Style.plain : Style := ⟨fun _ => true, []⟩

/-- The style of diagnostics : whole numbers show that they are fractional numbers, and
numbers below `10 ^ -4` or from `10 ^ 16` on have an exponent. -/
def Style.diagnostic : Style := ⟨fun point => -3 ≤ point && point ≤ 16, ['.', '0']⟩

/-- A decimal without an exponent. -/
def positional (style : Style) (d : Decimal) : List Char :=
  if d.point ≤ 0 then '0' :: '.' :: List.replicate d.point.natAbs '0' ++ d.digits
  else if d.digits.length ≤ d.point.toNat then
    d.digits ++ List.replicate (d.point.toNat - d.digits.length) '0' ++ style.whole
  else d.digits.take d.point.toNat ++ '.' :: d.digits.drop d.point.toNat

/-- A decimal with an exponent : one digit stands before the point. -/
def scientific (d : Decimal) : List Char :=
  let fraction :=
    match d.digits with
    | c :: c' :: cs => c :: '.' :: c' :: cs
    | ds => ds
  fraction ++ 'e' :: (toString (d.point - 1)).toList

/-- A double in a style. -/
def render (style : Style) (x : Float) : List Char :=
  let sign (negative : Bool) : List Char := if negative then ['-'] else []
  match Binary64.parts x with
  | .nan => ['N', 'a', 'N']
  | .infinite negative => sign negative ++ ['i', 'n', 'f']
  | .finite negative 0 _ => sign negative ++ '0' :: style.whole
  | .finite negative m q =>
    let d := shortest m q
    sign negative ++ if style.positional d.point then d.positional style else d.scientific

end Decimal

end Scoped
