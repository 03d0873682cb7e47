import Mathlib.Data.String.Basic
import Scoped.Operator
import Scoped.Proofs.Rounding

/-!
# Comparison

The laws of the comparison operators. They all rest on one comparison, `Value.compare?`, which
answers the other way around when its operands are exchanged (`Value.compare?_swap`), fails on
values without an order, and has no answer on NaN alone (`Number.compare?_eq_none_iff`). The main
statement is `BinaryOp.comparisons_consistent`.

Strings are ordered by code points, and this is also the order of their UTF-8 bytes
(`Text.flatMap_encode_lt`) : no encoding is the start of another one, and a greater code point has
the greater byte at the first place where the encodings differ.

Equality of numbers is by value, but an integer that meets a double is rounded first. So it is not
transitive where a double stands between two integers that are rounded to it, and only there :
`Number.equality_by_rounded_value`.
-/

namespace Scoped

/-! ## Encoded texts -/

namespace Text

theorem ofNat_lt_ofNat {m n : Nat} (h : m < n) (hn : n < 256) : UInt8.ofNat m < UInt8.ofNat n := by
  have hsize : UInt8.size = 256 := rfl
  rw [UInt8.lt_iff_toNat_lt, UInt8.toNat_ofNat_of_lt' (by omega), UInt8.toNat_ofNat_of_lt' hn]
  exact h

/-- The first byte of an encoding, which holds a number below `bound`. -/
def lead (base bound n : Nat) : List UInt8 := [UInt8.ofNat (n % bound + base)]

/-- An encoding with one byte more, for the last six bits. -/
def continued (p : Nat → List UInt8) (n : Nat) : List UInt8 :=
  p (n / 64) ++ [UInt8.ofNat (n % 64 + 0x80)]

/-- The encodings of two numbers below `bound` differ, and the first difference orders them like
the numbers. -/
def Increasing (p : Nat → List UInt8) (bound : Nat) : Prop :=
  ∀ ⦃m n⦄, m < n → n < bound → ∀ s t, p m ++ s < p n ++ t

theorem increasing_lead {base bound : Nat} (h : base + bound ≤ 256) :
    Increasing (lead base bound) bound := by
  intro m n hmn hn s t
  rw [lead, lead, Nat.mod_eq_of_lt (by omega), Nat.mod_eq_of_lt hn]
  exact List.Lex.rel (ofNat_lt_ofNat (by omega) (by omega))

theorem Increasing.continued {p : Nat → List UInt8} {bound : Nat} (hp : Increasing p bound) :
    Increasing (continued p) (64 * bound) := by
  intro m n hmn hn s t
  rw [Text.continued, Text.continued, List.append_assoc, List.append_assoc]
  obtain h | h := Nat.lt_or_eq_of_le (Nat.div_le_div_right (c := 64) hmn.le)
  · exact hp h (by omega) _ _
  · rw [h]
    exact List.Lex.append_left _ (.rel (ofNat_lt_ofNat (by omega) (by omega))) _

theorem utf8EncodeChar_eq (c : Char) : String.utf8EncodeChar c =
    if c.toNat ≤ 0x7f then [UInt8.ofNat c.toNat]
    else if c.toNat ≤ 0x7ff then continued (lead 0xc0 0x20) c.toNat
    else if c.toNat ≤ 0xffff then continued (continued (lead 0xe0 0x10)) c.toNat
    else continued (continued (continued (lead 0xf0 0x08))) c.toNat := by
  simp only [continued, lead, Nat.div_div_eq_div_mul, List.cons_append, List.nil_append]
  rfl

theorem encode_append_lt {c d : Char} (h : c < d) (s t : List UInt8) :
    String.utf8EncodeChar c ++ s < String.utf8EncodeChar d ++ t := by
  have hcd : c.toNat < d.toNat := h
  have hd : d.toNat < 0x110000 := by
    have hvalid : d.toNat < 0xd800 ∨ 0xdfff < d.toNat ∧ d.toNat < 0x110000 := d.valid
    omega
  rw [utf8EncodeChar_eq, utf8EncodeChar_eq]
  -- Encodings of different lengths differ in the first byte.
  split
  · split
    · exact List.Lex.rel (ofNat_lt_ofNat hcd (by omega))
    · repeat' split
      all_goals exact List.Lex.rel (ofNat_lt_ofNat (by omega) (by omega))
  · rw [if_neg (by omega : ¬d.toNat ≤ 0x7f)]
    split
    · split
      · exact (increasing_lead (by decide)).continued hcd (by omega) s t
      · split
        all_goals exact List.Lex.rel (ofNat_lt_ofNat (by omega) (by omega))
    · rw [if_neg (by omega : ¬d.toNat ≤ 0x7ff)]
      split
      · split
        · exact (increasing_lead (by decide)).continued.continued hcd (by omega) s t
        · exact List.Lex.rel (ofNat_lt_ofNat (by omega) (by omega))
      · rw [if_neg (by omega : ¬d.toNat ≤ 0xffff)]
        exact (increasing_lead (by decide)).continued.continued.continued hcd (by omega) s t

/-- Encoded texts are ordered like the texts. -/
theorem flatMap_encode_lt {cs ds : List Char} (h : cs < ds) :
    cs.flatMap String.utf8EncodeChar < ds.flatMap String.utf8EncodeChar := by
  induction h with
  | @nil d ds =>
    obtain ⟨b, bs, hb⟩ := List.exists_cons_of_ne_nil (String.utf8EncodeChar_ne_nil (c := d))
    rw [List.flatMap_cons, hb]
    exact List.Lex.nil
  | rel h => exact encode_append_lt h _ _
  | cons _ ih => exact List.Lex.append_left _ ih _

/-- The bytes of a string in UTF-8. -/
def bytes (s : String) : List UInt8 := s.toUTF8.data.toList

/-- The code points of a string. -/
def codePoints (s : String) : List Nat := s.toList.map Char.toNat

theorem bytes_eq (s : String) : bytes s = s.toList.flatMap String.utf8EncodeChar := by
  rw [bytes, String.toUTF8_eq_toByteArray, ← String.utf8Encode_toList]
  exact List.toList_data_toByteArray

theorem lt_iff_of_lt {α : Type} [LT α] [Std.Asymm (α := α) (· < ·)] {f : List Char → List α}
    (hf : ∀ {cs ds}, cs < ds → f cs < f ds) {cs ds : List Char} : f cs < f ds ↔ cs < ds := by
  refine ⟨fun h => ?_, hf⟩
  obtain hlt | rfl | hgt := lt_trichotomy cs ds
  · exact hlt
  · exact absurd h (List.lt_irrefl _)
  · exact absurd h (List.lt_asymm (hf hgt))

theorem bytes_lt_iff {s t : String} : bytes s < bytes t ↔ s < t := by
  rw [bytes_eq, bytes_eq]
  exact lt_iff_of_lt flatMap_encode_lt

theorem codePoints_lt_iff {s t : String} : codePoints s < codePoints t ↔ s < t :=
  lt_iff_of_lt (f := List.map Char.toNat) (List.map_lt fun _ _ h => h)

theorem compare_eq_lt_iff {s t : String} : compare s t = .lt ↔ s < t :=
  compareOfLessAndEq_eq_lt

end Text

/-! ## Numbers -/

namespace Binary64

theorem position_eq_none_iff {x : Float} : position x = none ↔ parts x = .nan := by
  rw [position_eq, parts_eq]
  split
  · simp
  · repeat' split
    all_goals simp

theorem compare?_swap (x y : Float) : compare? y x = (compare? x y).map Ordering.swap := by
  unfold compare?
  cases position x <;> cases position y <;> simp [Int.compare_swap]

theorem compare?_eq_none_iff {x y : Float} :
    compare? x y = none ↔ position x = none ∨ position y = none := by
  unfold compare?
  cases position x <;> cases position y <;> simp

theorem compare?_eq_some_eq_iff {x y : Float} :
    compare? x y = some .eq ↔ ∃ a, position y = some a ∧ position x = some a := by
  unfold compare?
  cases position x <;> cases position y <;> simp

theorem compare?_eq_iff_of_value? {x y : Float} {v : ℚ} (hx : value? x = some v) :
    compare? x y = some .eq ↔ value? y = some v := by
  constructor
  · intro h
    obtain ⟨a, ha, hfinite, hv⟩ := value?_eq_some_iff.1 hx
    obtain ⟨b, hy, hb⟩ := compare?_eq_some_eq_iff.1 h
    obtain rfl := Option.some.inj (ha.symm.trans hb)
    exact value?_eq_some_iff.2 ⟨a, hy, hfinite, hv⟩
  · intro hy
    rw [compare?_of_value? hx hy, compare_eq_iff_eq.2 rfl]

end Binary64

open Binary64

namespace Number

theorem natAbs_toInt_lt (i : Int64) : i.toInt.natAbs < 2 ^ 64 := by
  have hlt := i.toInt_lt
  have hge := i.le_toInt
  omega

theorem value?_toFloat_int (i : Int64) :
    value? (int i).toFloat = some (rounded i.toInt : ℚ) := value?_ofInt (natAbs_toInt_lt i)

/-- Whether the number is NaN. No integer is. -/
def IsNaN : Number → Prop
  | int _ => False
  | float x => parts x = .nan

theorem position_toFloat_eq_none_iff {n : Number} : position n.toFloat = none ↔ n.IsNaN := by
  cases n with
  | int i =>
    obtain ⟨a, ha, -⟩ := value?_eq_some_iff.1 (value?_toFloat_int i)
    simp [ha, IsNaN]
  | float x => exact position_eq_none_iff

theorem compare?_swap (m n : Number) : n.compare? m = (m.compare? n).map Ordering.swap := by
  cases m with
  | int i =>
    cases n with
    | int j => simp [compare?, Int.compare_swap]
    | float y => exact Binary64.compare?_swap _ _
  | float x => cases n <;> exact Binary64.compare?_swap _ _

/-- Only NaN has no place in the order of numbers. -/
theorem compare?_eq_none_iff {m n : Number} : m.compare? n = none ↔ m.IsNaN ∨ n.IsNaN := by
  have hmixed : Binary64.compare? m.toFloat n.toFloat = none ↔ m.IsNaN ∨ n.IsNaN := by
    rw [Binary64.compare?_eq_none_iff, position_toFloat_eq_none_iff, position_toFloat_eq_none_iff]
  cases m with
  | int i =>
    cases n with
    | int j => simp [compare?, IsNaN]
    | float y => exact hmixed
  | float x => cases n <;> exact hmixed

end Number

/-! ## Values -/

namespace Value

/-- The pairs of values that have an order : two numbers or two strings. -/
inductive Ordered : Value → Value → Prop where
  | numbers (m n : Number) : Ordered (number m) (number n)
  | strings (s t : String) : Ordered (string s) (string t)

/-- Whether the value is NaN. -/
def IsNaN : Value → Prop
  | number n => n.IsNaN
  | _ => False

theorem compare?_swap (a b : Value) :
    b.compare? a = (a.compare? b).map (Option.map Ordering.swap) := by
  cases a <;> cases b <;> try rfl
  · exact congrArg some (Number.compare?_swap _ _)
  · exact congrArg (fun o => some (some o)) Std.OrientedCmp.eq_swap

theorem Ordered.exists_compare? {a b : Value} (h : a.Ordered b) : ∃ o, a.compare? b = some o := by
  cases h <;> exact ⟨_, rfl⟩

theorem compare?_eq_none {a b : Value} (h : ¬a.Ordered b) : a.compare? b = none := by
  cases a <;> cases b <;> try rfl
  · exact absurd (.numbers _ _) h
  · exact absurd (.strings _ _) h

theorem equal_of_compare? {a b : Value} {o : Option Ordering} (h : a.compare? b = some o) :
    a.equal b = true ↔ o = some .eq := by
  cases a <;> cases b <;> cases h
  · exact decide_eq_true_iff
  · simp [equal]

theorem equal_comm (a b : Value) : a.equal b = b.equal a := by
  cases a <;> cases b <;> try rfl
  all_goals rw [Bool.eq_iff_iff]
  all_goals simp only [equal, decide_eq_true_eq]
  case number.number m n =>
    rw [Number.compare?_swap n m]
    cases n.compare? m with
    | none => simp
    | some o => cases o <;> simp
  all_goals exact eq_comm

theorem IsNaN.compare?_eq {a b : Value} {o : Option Ordering} (h : a.compare? b = some o) :
    o = none ↔ a.IsNaN ∨ b.IsNaN := by
  cases a <;> cases b <;> cases h
  · exact Number.compare?_eq_none_iff
  · simp [IsNaN]

end Value

/-! ## Operators -/

namespace BinaryOp

/-- The operators that need an order. -/
def orders : List BinaryOp := [lt, gt, le, ge]

/-- Whether a comparison succeeds and answers `true`. -/
def Holds (op : BinaryOp) (a b : Value) : Prop := op.apply a b = .ok (.bool true)

section Ordered

variable {a b : Value} {o : Option Ordering}

theorem ordering_of_compare? {op : BinaryOp} {test : Ordering → Bool} (h : a.compare? b = some o) :
    ordering op test a b = .ok (.bool (o.any test)) := by
  rw [ordering, h]

theorem holds_iff {op : BinaryOp} {r : Bool} (h : op.apply a b = .ok (.bool r)) :
    op.Holds a b ↔ r = true := by
  rw [Holds, h]
  simp

theorem holds_ordering {op : BinaryOp} {test : Ordering → Bool}
    (hop : op.apply a b = ordering op test a b) (h : a.compare? b = some o) :
    op.Holds a b ↔ o.any test = true :=
  holds_iff (hop.trans (ordering_of_compare? h))

theorem holds_lt (h : a.compare? b = some o) : lt.Holds a b ↔ o = some .lt := by
  rw [holds_ordering rfl h]
  rcases o with - | - | - | - <;> simp

theorem holds_gt (h : a.compare? b = some o) : gt.Holds a b ↔ o = some .gt := by
  rw [holds_ordering rfl h]
  rcases o with - | - | - | - <;> simp

theorem holds_le (h : a.compare? b = some o) :
    le.Holds a b ↔ o = some .lt ∨ o = some .eq := by
  rw [holds_ordering rfl h]
  rcases o with - | - | - | - <;> simp

theorem holds_eq (h : a.compare? b = some o) : eq.Holds a b ↔ o = some .eq := by
  rw [holds_iff rfl, Value.equal_of_compare? h]

/-- An order operator and its mirror image answer alike on exchanged operands. -/
theorem ordering_swap {op mirror : BinaryOp} {test reversed : Ordering → Bool}
    (hswap : ∀ r, reversed r.swap = test r) (h : a.Ordered b) :
    ordering op test a b = ordering mirror reversed b a := by
  obtain ⟨o, ho⟩ := h.exists_compare?
  have ho' : b.compare? a = some (o.map Ordering.swap) := by rw [Value.compare?_swap, ho]; rfl
  rw [ordering_of_compare? ho, ordering_of_compare? ho']
  cases o with
  | none => rfl
  | some r => simp [hswap]

end Ordered

theorem exists_ordering {op : BinaryOp} (h : op ∈ orders) :
    ∃ test, ∀ a b, op.apply a b = ordering op test a b := by
  simp only [orders, List.mem_cons, List.not_mem_nil, or_false] at h
  obtain rfl | rfl | rfl | rfl := h <;> exact ⟨_, fun _ _ => rfl⟩

theorem apply_of_ordered {op : BinaryOp} (hop : op ∈ orders) {a b : Value} (h : a.Ordered b) :
    ∃ r, op.apply a b = .ok (.bool r) := by
  obtain ⟨test, htest⟩ := exists_ordering hop
  obtain ⟨o, ho⟩ := h.exists_compare?
  exact ⟨_, (htest a b).trans (ordering_of_compare? ho)⟩

theorem apply_of_not_ordered {op : BinaryOp} (hop : op ∈ orders) {a b : Value}
    (h : ¬a.Ordered b) : op.apply a b = .error (.typeError (.operands op a.type b.type)) := by
  obtain ⟨test, htest⟩ := exists_ordering hop
  rw [htest, ordering, Value.compare?_eq_none h]

theorem holds_lt_int {i j : Int64} :
    lt.Holds (.number (.int i)) (.number (.int j)) ↔ i.toInt < j.toInt := by
  rw [holds_lt rfl, Number.compare?, Option.some_inj, Int.compare_eq_lt]

theorem holds_lt_string {s t : String} : lt.Holds (.string s) (.string t) ↔ s < t := by
  rw [holds_lt rfl, Option.some_inj, Text.compare_eq_lt_iff]

/-- What the comparisons of two values have to do with each other. -/
structure Consistent (a b : Value) : Prop where
  /-- The order operators succeed together. -/
  succeed : a.Ordered b → ∀ op ∈ orders, ∃ r, op.apply a b = .ok (.bool r)
  /-- The order operators fail together. -/
  fail : ¬a.Ordered b → ∀ op ∈ orders,
    op.apply a b = .error (.typeError (.operands op a.type b.type))
  /-- Equality never fails, and has a negation. -/
  equality : ∃ r, eq.apply a b = .ok (.bool r) ∧ ne.apply a b = .ok (.bool !r)
  eq_comm : eq.apply a b = eq.apply b a
  gt_iff : a.Ordered b → gt.apply a b = lt.apply b a
  ge_iff : a.Ordered b → ge.apply a b = le.apply b a
  le_iff : a.Ordered b → (le.Holds a b ↔ lt.Holds a b ∨ eq.Holds a b)
  not_lt_eq : ¬(lt.Holds a b ∧ eq.Holds a b)
  not_lt_gt : ¬(lt.Holds a b ∧ gt.Holds a b)
  not_eq_gt : ¬(eq.Holds a b ∧ gt.Holds a b)
  /-- One of the three holds, unless a NaN is involved. -/
  trichotomy : a.Ordered b →
    (lt.Holds a b ∨ eq.Holds a b ∨ gt.Holds a b ↔ ¬(a.IsNaN ∨ b.IsNaN))

theorem Holds.exists_compare? {op : BinaryOp} (hop : op ∈ orders) {a b : Value}
    (h : op.Holds a b) : ∃ o, a.compare? b = some o := by
  refine Value.Ordered.exists_compare? (by_contra fun hn => ?_)
  rw [Holds, apply_of_not_ordered hop hn] at h
  cases h

theorem consistent (a b : Value) : Consistent a b where
  succeed h _ hop := apply_of_ordered hop h
  fail h _ hop := apply_of_not_ordered hop h
  equality := ⟨_, rfl, rfl⟩
  eq_comm := by rw [apply, apply, Value.equal_comm]
  gt_iff := ordering_swap (by decide)
  ge_iff := ordering_swap (by decide)
  le_iff h := by
    obtain ⟨o, ho⟩ := h.exists_compare?
    rw [holds_le ho, holds_lt ho, holds_eq ho]
  not_lt_eq := by
    rintro ⟨hlt, heq⟩
    obtain ⟨o, ho⟩ := hlt.exists_compare? (by decide)
    cases ((holds_lt ho).1 hlt).symm.trans ((holds_eq ho).1 heq)
  not_lt_gt := by
    rintro ⟨hlt, hgt⟩
    obtain ⟨o, ho⟩ := hlt.exists_compare? (by decide)
    cases ((holds_lt ho).1 hlt).symm.trans ((holds_gt ho).1 hgt)
  not_eq_gt := by
    rintro ⟨heq, hgt⟩
    obtain ⟨o, ho⟩ := hgt.exists_compare? (by decide)
    cases ((holds_eq ho).1 heq).symm.trans ((holds_gt ho).1 hgt)
  trichotomy h := by
    obtain ⟨o, ho⟩ := h.exists_compare?
    rw [holds_lt ho, holds_eq ho, holds_gt ho, ← Value.IsNaN.compare?_eq ho]
    rcases o with - | - | - | - <;> simp

/-- The comparison operators are consistent with each other on all values. On integers and on
strings `<` is a strict total order, on strings the one of the code points and of the bytes. -/
theorem comparisons_consistent :
    (∀ a b, Consistent a b) ∧
    IsStrictTotalOrder Int64 (fun i j => lt.Holds (.number (.int i)) (.number (.int j))) ∧
    IsStrictTotalOrder String (fun s t => lt.Holds (.string s) (.string t)) ∧
    (∀ i j, lt.Holds (.number (.int i)) (.number (.int j)) ↔ i.toInt < j.toInt) ∧
    (∀ s t, lt.Holds (.string s) (.string t) ↔ Text.codePoints s < Text.codePoints t) ∧
    ∀ s t, lt.Holds (.string s) (.string t) ↔ Text.bytes s < Text.bytes t := by
  refine ⟨consistent, ?_, ?_, fun _ _ => holds_lt_int, fun _ _ => ?_, fun _ _ => ?_⟩
  · exact RelEmbedding.isStrictTotalOrder (s := fun m n : Int => m < n)
      ⟨⟨Int64.toInt, fun _ _ => Int64.toInt_inj.1⟩, holds_lt_int.symm⟩
  · exact RelEmbedding.isStrictTotalOrder (s := fun cs ds : List Char => cs < ds)
      ⟨⟨String.toList, fun _ _ => String.toList_injective⟩, holds_lt_string.symm⟩
  · rw [holds_lt_string, Text.codePoints_lt_iff]
  · rw [holds_lt_string, Text.bytes_lt_iff]

end BinaryOp

/-! ## Equality of numbers -/

theorem Binary64.compare?_eq_trans {x y z : Float} (hxy : compare? x y = some .eq)
    (hyz : compare? y z = some .eq) : compare? x z = some .eq := by
  obtain ⟨a, hy, hx⟩ := compare?_eq_some_eq_iff.1 hxy
  obtain ⟨b, hz, hy'⟩ := compare?_eq_some_eq_iff.1 hyz
  obtain rfl := Option.some.inj (hy.symm.trans hy')
  exact compare?_eq_some_eq_iff.2 ⟨a, hz, hx⟩

theorem Binary64.natAbs_le_of_position {x : Float} {a : Int} (h : position x = some a) :
    a.natAbs ≤ infinity := by
  rw [position_eq] at h
  split at h <;> cases h
  next hle => exact (natAbs_signed x).trans_le (Nat.le_of_not_lt hle)

/-- The infinities stand at the ends of the order. -/
theorem Binary64.parts_eq_infinite_iff {x : Float} {negative : Bool} :
    parts x = .infinite negative ↔
      position x = some (if negative then -(infinity : Int) else infinity) := by
  have hpos : infinity ≠ 0 := by decide
  have habs := natAbs_signed x
  rw [position_eq, parts_eq]
  split
  · simp
  · split
    · next h =>
      rw [signed, h]
      cases negative <;> cases isNegative x <;> simp <;> omega
    · next h =>
      have hfinite : signed x ≠ if negative then -(infinity : Int) else infinity := by
        intro hsigned
        rw [hsigned] at habs
        cases negative <;> simp at habs <;> omega
      split <;> simp [hfinite]

namespace Number

/-- Whether two numbers are equal as values of the language. -/
def Equal (a b : Number) : Prop := (Value.number a).equal (.number b) = true

theorem equal_iff {a b : Number} : Equal a b ↔ a.compare? b = some .eq := decide_eq_true_iff

theorem Equal.symm {a b : Number} (h : Equal a b) : Equal b a :=
  (Value.equal_comm _ _).symm.trans h

theorem equal_int_iff {i j : Int64} : Equal (int i) (int j) ↔ i = j := by
  rw [equal_iff, compare?, Option.some_inj, compare_eq_iff_eq, Int64.toInt_inj]

/-- A double is equal to the integers that are rounded to it. -/
theorem equal_int_float_iff {i : Int64} {x : Float} :
    Equal (int i) (float x) ↔ value? x = some (rounded i.toInt : ℚ) := by
  rw [equal_iff]
  exact compare?_eq_iff_of_value? (value?_toFloat_int i)

theorem equal_float_iff {x y : Float} : Equal (float x) (float y) ↔
    (∃ v, value? x = some v ∧ value? y = some v) ∨
      ∃ negative, parts x = .infinite negative ∧ parts y = .infinite negative := by
  rw [equal_iff]
  constructor
  · intro h
    obtain ⟨a, hy, hx⟩ := compare?_eq_some_eq_iff.1 h
    obtain hlt | hle := Nat.lt_or_ge a.natAbs infinity
    · exact .inl ⟨_, value?_eq_some_iff.2 ⟨a, hx, hlt, rfl⟩, value?_eq_some_iff.2 ⟨a, hy, hlt, rfl⟩⟩
    · have hend : a = if decide (a < 0) then -(infinity : Int) else infinity := by
        have hle' := natAbs_le_of_position hx
        simp only [decide_eq_true_eq]
        split <;> omega
      exact .inr ⟨_, parts_eq_infinite_iff.2 (hx.trans (congrArg some hend)),
        parts_eq_infinite_iff.2 (hy.trans (congrArg some hend))⟩
  · rintro (⟨v, hx, hy⟩ | ⟨negative, hx, hy⟩)
    · exact (compare?_eq_iff_of_value? hx).2 hy
    · exact compare?_eq_some_eq_iff.2
        ⟨_, parts_eq_infinite_iff.1 hy, parts_eq_infinite_iff.1 hx⟩

/-- Two integers are all that can break the transitivity, with the double between them that both are
rounded to. -/
theorem Equal.trans_iff {a b c : Number} (hab : Equal a b) (hbc : Equal b c) :
    Equal a c ↔ ¬∃ i x j, a = int i ∧ b = float x ∧ c = int j ∧ i ≠ j := by
  have hdoubles (h : Binary64.compare? a.toFloat b.toFloat = some .eq)
      (h' : Binary64.compare? b.toFloat c.toFloat = some .eq) := compare?_eq_trans h h'
  cases b with
  | int j =>
    -- The integer in the middle is one of its neighbours, or both of these are doubles.
    simp only [reduceCtorEq, false_and, and_false, exists_false, not_false_eq_true, iff_true]
    cases a with
    | int i => exact equal_int_iff.1 hab ▸ hbc
    | float x =>
      cases c with
      | int k => exact equal_int_iff.1 hbc ▸ hab
      | float y => exact equal_iff.2 (hdoubles (equal_iff.1 hab) (equal_iff.1 hbc))
  | float x =>
    cases a with
    | int i =>
      cases c with
      | int k => simp [equal_int_iff]
      | float y =>
        have hac : Equal (int i) (float y) :=
          equal_iff.2 (hdoubles (equal_iff.1 hab) (equal_iff.1 hbc))
        simp [hac]
    | float y =>
      have hac : Equal (float y) c := equal_iff.2 (hdoubles (equal_iff.1 hab) (equal_iff.1 hbc))
      simp [hac]

/-- The exact value of a finite number. -/
def exactValue? : Number → Option ℚ
  | int i => some i.toInt
  | float x => value? x

/-- Whether two numbers have the same exact value, or are the same infinity. -/
def SameValue (a b : Number) : Prop :=
  (∃ v, b.exactValue? = some v ∧ a.exactValue? = some v) ∨
    ∃ x y negative, a = float x ∧ b = float y ∧
      parts x = .infinite negative ∧ parts y = .infinite negative

theorem SameValue.symm {a b : Number} : SameValue a b → SameValue b a := by
  rintro (⟨v, hb, ha⟩ | ⟨x, y, negative, ha, hb, hx, hy⟩)
  · exact .inl ⟨v, ha, hb⟩
  · exact .inr ⟨y, x, negative, hb, ha, hy, hx⟩

theorem sameValue_int_iff {i j : Int64} : SameValue (int i) (int j) ↔ i = j := by
  simp [SameValue, exactValue?, Int64.toInt_inj]

theorem sameValue_int_float_iff {i : Int64} {x : Float} :
    SameValue (int i) (float x) ↔ value? x = some (i.toInt : ℚ) := by
  simp [SameValue, exactValue?]

theorem sameValue_float_iff {x y : Float} :
    SameValue (float x) (float y) ↔ Equal (float x) (float y) := by
  rw [equal_float_iff]
  simp [SameValue, exactValue?, and_comm]

/-- Whether the integer is rounded to the double, though its value is another one. -/
def Collides (i : Int64) (x : Float) : Prop :=
  value? x = some (rounded i.toInt : ℚ) ∧ rounded i.toInt ≠ i.toInt

theorem equal_iff_sameValue_int_float {i : Int64} {x : Float} :
    (Equal (int i) (float x) ↔ SameValue (int i) (float x)) ↔ ¬Collides i x := by
  rw [equal_int_float_iff, sameValue_int_float_iff, Collides]
  by_cases h : rounded i.toInt = i.toInt
  · simp [h]
  · have hno : value? x ≠ some (i.toInt : ℚ) := fun hx => h (rounded_of_value? hx)
    simp [h, hno]

theorem equal_iff_sameValue {a b : Number} : (Equal a b ↔ SameValue a b) ↔
    ¬∃ i x, (a = int i ∧ b = float x ∨ a = float x ∧ b = int i) ∧ Collides i x := by
  have hsymm : (Equal a b ↔ SameValue a b) ↔ (Equal b a ↔ SameValue b a) :=
    iff_congr ⟨.symm, .symm⟩ ⟨.symm, .symm⟩
  cases a with
  | int i =>
    cases b with
    | int j => simp [equal_int_iff, sameValue_int_iff]
    | float x => simp [equal_iff_sameValue_int_float]
  | float x =>
    cases b with
    | int i => simp [hsymm, equal_iff_sameValue_int_float]
    | float y => simp [sameValue_float_iff]

theorem rounded_eq_iff {i : Int64} :
    rounded i.toInt = i.toInt ↔ ∃ x, value? x = some (i.toInt : ℚ) := by
  constructor
  · intro h
    refine ⟨(int i).toFloat, ?_⟩
    rw [value?_toFloat_int, h]
  · rintro ⟨x, hx⟩
    exact rounded_of_value? hx

/-- Numbers are equal by value, and equality is transitive, but for the rounding of an integer that
meets a double. It goes to a nearest double, so an integer that is the value of a double is kept,
as are all up to `2 ^ 53`. -/
theorem equality_by_rounded_value (a b c : Number) :
    ((Equal a b ↔ SameValue a b) ↔
      ¬∃ i x, (a = int i ∧ b = float x ∨ a = float x ∧ b = int i) ∧ Collides i x) ∧
    (Equal a b → Equal b c →
      (Equal a c ↔ ¬∃ i x j, a = int i ∧ b = float x ∧ c = int j ∧ i ≠ j)) ∧
    ∀ i : Int64, (rounded i.toInt = i.toInt ↔ ∃ x, value? x = some (i.toInt : ℚ)) ∧
      (i.toInt.natAbs ≤ 2 ^ 53 → rounded i.toInt = i.toInt) ∧
      ∀ x v, value? x = some v → |(rounded i.toInt : ℚ) - i.toInt| ≤ |v - i.toInt| :=
  ⟨equal_iff_sameValue, Equal.trans_iff, fun _ =>
    ⟨rounded_eq_iff, rounded_of_natAbs_le, fun _ _ => abs_rounded_sub_le _⟩⟩

/-- The least integer that is no double is equal to its neighbour when that is a double. -/
theorem equal_not_by_value : ∃ x, value? x = some (9007199254740992 : ℚ) ∧
    Equal (int 9007199254740993) (float x) ∧ Equal (float x) (int 9007199254740992) ∧
    ¬Equal (int 9007199254740993) (int 9007199254740992) := by
  have hround : rounded (9007199254740993 : Int64).toInt = 9007199254740992 := by decide
  have hexact : rounded (9007199254740992 : Int64).toInt = 9007199254740992 := by decide
  have hvalue : value? (int 9007199254740992).toFloat = some (9007199254740992 : ℚ) := by
    rw [value?_toFloat_int, hexact]
    rfl
  refine ⟨_, hvalue, equal_int_float_iff.2 ?_, Equal.symm (equal_int_float_iff.2 ?_), fun h => ?_⟩
  · rw [hvalue, hround]
    rfl
  · rw [hvalue, hexact]
    rfl
  · exact absurd (equal_int_iff.1 h) (by decide)

end Number

end Scoped
