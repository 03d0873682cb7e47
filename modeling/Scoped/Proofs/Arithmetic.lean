import Scoped.Proofs.Evaluation

/-!
# Exact arithmetic on integers

Integers are added, subtracted, multiplied and negated exactly, or the operation fails. `Arith` is
the syntax of expressions in which nothing else happens, with their exact values in the integers,
and `Arith.parts` has their subexpressions in the order in which they are evaluated.
`Host.eval_arith` says that such an expression has its exact value if no subexpression leaves the
64 bits, and otherwise fails at the first one that does.

Division and remainder are defined for the same operands, and fit together :
`BinaryOp.division_agrees`.
-/

namespace Scoped

variable {call : Function → List Value → Eval Value} {m : Machine} {a b r : Int64} {n : Int}

/-! ## Integers that fit -/

namespace Number

/-- The integer is one of those from -2⁶³ to 2⁶³ - 1. -/
def Fits (n : Int) : Prop := -9223372036854775808 ≤ n ∧ n ≤ 9223372036854775807

instance : DecidablePred Fits := fun _ => inferInstanceAs (Decidable (_ ∧ _))

theorem fits_toInt (a : Int64) : Fits a.toInt := ⟨a.minValue_le_toInt, a.toInt_le⟩

theorem Fits.exists_toInt (h : Fits n) : ∃ r : Int64, r.toInt = n :=
  ⟨.ofInt n, Int64.toInt_ofInt_of_le h.1 (Int.lt_add_one_of_le h.2)⟩

theorem ofInt?_of_toInt (h : r.toInt = n) : ofInt? n = some (int r) := ofInt?_eq_some.2 ⟨r, rfl, h⟩

theorem ofInt?_of_not_fits (h : ¬Fits n) : ofInt? n = none := if_neg h

theorem exactly_of_toInt (h : r.toInt = n) : exactly a b n = .ok (int r) := by
  rw [exactly, ofInt?_of_toInt h]

theorem exactly_of_not_fits (h : ¬Fits n) : exactly a b n = .error ⟨a.toInt, b.toInt⟩ := by
  rw [exactly, ofInt?_of_not_fits h]

end Number

/-! ## Arithmetic expressions -/

namespace Arith

/-- The operators between two operands that are exact on all integers. -/
inductive Op where
  | add
  | sub
  | mul
deriving DecidableEq, Repr

/-- The operator of the language. -/
def Op.binary : Op → BinaryOp
  | add => .add
  | sub => .sub
  | mul => .mul

/-- The operation on the integers. -/
def Op.exact : Op → Int → Int → Int
  | add, a, b => a + b
  | sub, a, b => a - b
  | mul, a, b => a * b

end Arith

/-- An expression that is made of integer literals by negation, addition, subtraction and
multiplication. -/
inductive Arith where
  | literal (span : Span) (n : Int64)
  | neg (span : Span) (operand : Arith)
  | binary (span : Span) (op : Arith.Op) (left right : Arith)

namespace Arith

/-- The expression of the language. -/
def expr : Arith → Expr
  | literal span n => .literal span (.number (.int n))
  | neg span t => .unary span .minus t.expr
  | binary span op t u => .binary span op.binary t.expr u.expr

/-- Where the expression stands. -/
def span : Arith → Span
  | literal span _ | neg span _ | binary span _ _ _ => span

/-- The exact value. -/
def value : Arith → Int
  | literal _ n => n.toInt
  | neg _ t => -t.value
  | binary _ op t u => op.exact t.value u.value

/-- The subexpressions : the operands from left to right, and the expression itself after them. -/
def parts : Arith → List Arith
  | literal span n => [literal span n]
  | neg span t => t.parts ++ [neg span t]
  | binary span op t u => t.parts ++ (u.parts ++ [binary span op t u])

/-- The fault of an operation whose result does not fit. It tells the operands. -/
inductive Faults : Arith → TypeFault → Prop
  | neg {span : Span} {t : Arith} : Faults (neg span t) (.negationOverflow t.value)
  | binary {span : Span} {op : Op} {t u : Arith} :
    Faults (binary span op t u) (.overflow op.binary t.value u.value)

/-- The first subexpression whose value does not fit. -/
def overflow? (t : Arith) : Option Arith := t.parts.find? fun d => ¬Number.Fits d.value

theorem overflow?_eq_none_iff {t : Arith} :
    t.overflow? = none ↔ ∀ d ∈ t.parts, Number.Fits d.value := by
  simp [overflow?]

/-! ## Operations on integers -/

theorem neg_of_toInt (h : r.toInt = -a.toInt) :
    UnaryOp.minus.apply (.number (.int a)) = .ok (.number (.int r)) := by
  simp only [UnaryOp.apply, Number.neg, Number.ofInt?_of_toInt h, UnaryOp.outcome]

theorem neg_of_not_fits (h : ¬Number.Fits (-a.toInt)) :
    UnaryOp.minus.apply (.number (.int a)) = .error (.typeError (.negationOverflow a.toInt)) := by
  simp only [UnaryOp.apply, Number.neg, Number.ofInt?_of_not_fits h, UnaryOp.outcome]

theorem Op.apply_eq (op : Op) (a b : Int64) :
    op.binary.apply (.number (.int a)) (.number (.int b)) =
      op.binary.outcome (Number.exactly a b (op.exact a.toInt b.toInt)) := by
  cases op <;> rfl

theorem Op.apply_of_toInt (op : Op) (h : r.toInt = op.exact a.toInt b.toInt) :
    op.binary.apply (.number (.int a)) (.number (.int b)) = .ok (.number (.int r)) := by
  rw [op.apply_eq, Number.exactly_of_toInt h, BinaryOp.outcome]

theorem Op.apply_of_not_fits {op : Op} (h : ¬Number.Fits (op.exact a.toInt b.toInt)) :
    op.binary.apply (.number (.int a)) (.number (.int b)) =
      .error (.typeError (.overflow op.binary a.toInt b.toInt)) := by
  rw [op.apply_eq, Number.exactly_of_not_fits h, BinaryOp.outcome]

/-! ## Evaluation -/

/-- An expression none of whose subexpressions overflows evaluates to its exact value. -/
theorem eval_of_fits (call : Function → List Value → Eval Value) (m : Machine) {t : Arith}
    (h : ∀ d ∈ t.parts, Number.Fits d.value) :
    ∃ r : Int64, r.toInt = t.value ∧ t.expr.eval call m = .ok (.number (.int r)) m := by
  induction t with
  | literal span n => exact ⟨n, rfl, Expr.eval_literal _⟩
  | neg span t ih =>
    obtain ⟨ht, hself⟩ := List.forall_mem_append.1 h
    obtain ⟨a, ha, heval⟩ := ih ht
    obtain ⟨r, hr⟩ := (hself _ (List.mem_singleton_self _)).exists_toInt
    refine ⟨r, hr, ?_⟩
    rw [expr, Expr.eval_unary_of_operand heval, neg_of_toInt (by rw [hr, ha]; rfl)]
    rfl
  | binary span op t u iht ihu =>
    obtain ⟨ht, hrest⟩ := List.forall_mem_append.1 h
    obtain ⟨hu, hself⟩ := List.forall_mem_append.1 hrest
    obtain ⟨a, ha, hevalt⟩ := iht ht
    obtain ⟨b, hb, hevalu⟩ := ihu hu
    obtain ⟨r, hr⟩ := (hself _ (List.mem_singleton_self _)).exists_toInt
    exact ⟨r, hr, Expr.eval_binary_of_ok hevalt hevalu
      (op.apply_of_toInt (by rw [hr, ha, hb]; rfl))⟩

/-- The expression itself is looked at last. -/
theorem eq_of_find? {t d : Arith} (h : [t].find? (fun c => ¬Number.Fits c.value) = some d) :
    ¬Number.Fits t.value ∧ d = t := by
  obtain rfl := List.mem_singleton.1 (List.mem_of_find?_eq_some h)
  exact ⟨by simpa using List.find?_some h, rfl⟩

/-- The operand of a negation is looked at first, and then the negation. -/
theorem overflow?_neg {span : Span} {t d : Arith} (h : (neg span t).overflow? = some d) :
    t.overflow? = some d ∨
      t.overflow? = none ∧ ¬Number.Fits (neg span t).value ∧ d = neg span t := by
  rw [overflow?, parts, List.find?_append, Option.or_eq_some_iff] at h
  exact h.imp_right fun ⟨ht, hself⟩ => ⟨ht, eq_of_find? hself⟩

/-- The operands are looked at from left to right, and then the operation. -/
theorem overflow?_binary {span : Span} {op : Op} {t u d : Arith}
    (h : (binary span op t u).overflow? = some d) :
    t.overflow? = some d ∨ t.overflow? = none ∧ (u.overflow? = some d ∨
      u.overflow? = none ∧ ¬Number.Fits (binary span op t u).value ∧ d = binary span op t u) := by
  rw [overflow?, parts, List.find?_append, List.find?_append, Option.or_eq_some_iff,
    Option.or_eq_some_iff] at h
  exact h.imp_right fun ⟨ht, hrest⟩ => ⟨ht, hrest.imp_right fun ⟨hu, hself⟩ =>
    ⟨hu, eq_of_find? hself⟩⟩

/-- An expression fails at the first of its subexpressions that overflows. -/
theorem eval_of_overflow? {t d : Arith} (h : t.overflow? = some d) : ∃ fault, d.Faults fault ∧
    t.expr.eval call m = .error ⟨.typeError fault, some d.span⟩ m := by
  induction t with
  | literal span n =>
    have hnone : (literal span n).overflow? = none :=
      overflow?_eq_none_iff.2 (by simpa [parts, value] using Number.fits_toInt n)
    rw [hnone] at h
    cases h
  | neg span t ih =>
    obtain ht | ⟨ht, hself, rfl⟩ := overflow?_neg h
    · obtain ⟨fault, hfault, heval⟩ := ih ht
      exact ⟨fault, hfault, Expr.eval_unary_of_error heval⟩
    · obtain ⟨a, ha, heval⟩ := eval_of_fits call m (overflow?_eq_none_iff.1 ht)
      refine ⟨_, .neg, ?_⟩
      rw [expr, Expr.eval_unary_of_operand heval, neg_of_not_fits (by rw [ha]; exact hself), ha]
      rfl
  | binary span op t u iht ihu =>
    obtain ht | ⟨ht, hrest⟩ := overflow?_binary h
    · obtain ⟨fault, hfault, heval⟩ := iht ht
      exact ⟨fault, hfault, Expr.eval_binary_of_error_left heval⟩
    obtain ⟨a, ha, hevalt⟩ := eval_of_fits call m (overflow?_eq_none_iff.1 ht)
    obtain hu | ⟨hu, hself, rfl⟩ := hrest
    · obtain ⟨fault, hfault, heval⟩ := ihu hu
      exact ⟨fault, hfault, Expr.eval_binary_of_error_right hevalt heval⟩
    · obtain ⟨b, hb, hevalu⟩ := eval_of_fits call m (overflow?_eq_none_iff.1 hu)
      refine ⟨_, .binary, ?_⟩
      rw [expr, Expr.eval_binary_of_operands hevalt hevalu,
        Op.apply_of_not_fits (by rw [ha, hb]; exact hself), ha, hb]
      rfl

end Arith

/-- Arithmetic on integers is exact or fails. An expression has its exact value exactly if the
exact values of all its subexpressions fit into 64 bits. Otherwise it fails at the first one, in
the order of evaluation, that does not fit. Either way it leaves the machine as it was. -/
theorem Host.eval_arith (host : Host) (t : Arith) (m : Machine) :
    ((∃ r : Int64, r.toInt = t.value ∧ host.eval t.expr m = .ok (.number (.int r)) m) ↔
      ∀ d ∈ t.parts, Number.Fits d.value) ∧
    ∀ before d after, t.parts = before ++ d :: after → (∀ c ∈ before, Number.Fits c.value) →
      ¬Number.Fits d.value → ∃ fault, d.Faults fault ∧
        host.eval t.expr m = .error ⟨.typeError fault, some d.span⟩ m := by
  refine ⟨⟨?_, fun h => Arith.eval_of_fits _ m h⟩, ?_⟩
  · rintro ⟨r, -, heval⟩
    rw [← Arith.overflow?_eq_none_iff]
    cases hover : t.overflow? with
    | none => rfl
    | some d =>
      obtain ⟨fault, -, hfails⟩ := Arith.eval_of_overflow? (m := m) hover
      cases heval.symm.trans hfails
  · intro before d after hparts hbefore hd
    refine Arith.eval_of_overflow? (List.find?_eq_some_iff_append.2 ?_)
    exact ⟨by simpa using hd, before, after, hparts, by simpa using hbefore⟩

/-- `0 * -m`, where `m` is the least integer, is exactly zero, and fails all the same : at the
negation, after the literals. -/
theorem Host.eval_arith_hiddenOverflow :
    let m : Machine := ⟨.empty, 0, .standard, 0, #[]⟩
    let t : Arith := .binary ⟨0, 25⟩ .mul (.literal ⟨0, 1⟩ 0)
      (.neg ⟨4, 25⟩ (.literal ⟨5, 25⟩ Int64.minValue))
    t.value = 0 ∧ Host.eval ⟨0⟩ t.expr m =
      .error ⟨.typeError (.negationOverflow (-9223372036854775808)), some ⟨4, 25⟩⟩ m := by
  intro m t
  obtain ⟨-, hfails⟩ := Host.eval_arith ⟨0⟩ t m
  have hliterals : ∀ c ∈ [Arith.literal ⟨0, 1⟩ 0, .literal ⟨5, 25⟩ Int64.minValue],
      Number.Fits c.value := by decide
  obtain ⟨fault, hfault, heval⟩ := hfails _ _ [t] rfl hliterals (by decide)
  cases hfault
  exact ⟨rfl, heval⟩

/-! ## Division -/

namespace Number

theorem toInt_eq_zero_iff : a.toInt = 0 ↔ a = 0 := Int64.toInt_inj (y := 0)

theorem fits_of_natAbs_lt (h : n.natAbs < 9223372036854775808) : Fits n := by
  unfold Fits
  omega

theorem natAbs_toInt_le (a : Int64) : a.toInt.natAbs ≤ 9223372036854775808 := by
  have ha := fits_toInt a
  unfold Fits at ha
  omega

/-- The only quotient of two integers that does not fit is that of the least one and -1. -/
theorem fits_tdiv (hb : b ≠ 0) (h : ¬(a = Int64.minValue ∧ b = -1)) :
    Fits (a.toInt.tdiv b.toInt) := by
  have ha := fits_toInt a
  have hzero : b.toInt ≠ 0 := mt toInt_eq_zero_iff.1 hb
  by_cases hone : b.toInt = 1
  · rwa [hone, Int.tdiv_one]
  by_cases hminus : b.toInt = -1
  · have hmin : a.toInt ≠ -9223372036854775808 := fun h' =>
      h ⟨Int64.toInt_inj.1 h', Int64.toInt_inj.1 hminus⟩
    rw [hminus, Int.tdiv_neg, Int.tdiv_one]
    unfold Fits at *
    omega
  · -- a divisor of at least two halves the dividend
    have hhalf : a.toInt.natAbs / b.toInt.natAbs ≤ a.toInt.natAbs / 2 :=
      Nat.div_le_div_left (by omega) (by decide)
    have hle : (a.toInt.tdiv b.toInt).natAbs ≤ a.toInt.natAbs / 2 :=
      Nat.le_trans (Nat.le_of_eq (Int.natAbs_tdiv _ _)) hhalf
    have hlimit := natAbs_toInt_le a
    exact fits_of_natAbs_lt (by omega)

/-- A remainder is less than the divisor. -/
theorem natAbs_tmod_lt (hb : b ≠ 0) : (a.toInt.tmod b.toInt).natAbs < b.toInt.natAbs := by
  rw [Int.natAbs_tmod]
  exact Nat.mod_lt _ (Int.natAbs_pos.2 (mt toInt_eq_zero_iff.1 hb))

theorem fits_tmod (hb : b ≠ 0) : Fits (a.toInt.tmod b.toInt) :=
  fits_of_natAbs_lt (Nat.lt_of_lt_of_le (natAbs_tmod_lt hb) (natAbs_toInt_le b))

theorem sign_tmod (a b : Int) : a.tmod b = 0 ∨ (a.tmod b).sign = a.sign := by
  by_cases h : b ∣ a
  · exact .inl (Int.tmod_eq_zero_of_dvd h)
  · exact .inr (by rw [Int.sign_tmod, if_neg h])

/-- What is left of the dividend without the remainder is nearer to zero. -/
theorem fits_sub_tmod (a : Int64) (k : Int) : Fits (a.toInt - a.toInt.tmod k) := by
  have ha := fits_toInt a
  have habs := Int.natAbs_tmod a.toInt k
  have hle := Nat.mod_le a.toInt.natAbs k.natAbs
  rw [← habs] at hle
  unfold Fits at *
  obtain h0 | hsign := sign_tmod a.toInt k
  · omega
  · rcases Int.lt_trichotomy a.toInt 0 with hneg | hzero | hpos
    · rw [Int.sign_eq_neg_one_of_neg hneg, Int.sign_eq_neg_one_iff_neg] at hsign
      omega
    · omega
    · rw [Int.sign_eq_one_of_pos hpos, Int.sign_eq_one_iff_pos] at hsign
      omega

end Number

namespace BinaryOp

theorem division_int (op : BinaryOp) (zero : TypeFault)
    (f : Number → Number → Except Overflow Number) (hb : b ≠ 0) :
    op.division zero f (.number (.int a)) (.number (.int b)) =
      op.outcome (f (.int a) (.int b)) := by
  have hzero : (Number.int b).isIntZero = false :=
    decide_eq_false (mt Number.toInt_eq_zero_iff.1 hb)
  simp only [division, hzero, Bool.false_eq_true, if_false]

theorem rem_of_toInt {q : Int64} (hb : b ≠ 0) (hq : q.toInt = a.toInt.tdiv b.toInt)
    (hr : r.toInt = a.toInt.tmod b.toInt) :
    rem.apply (.number (.int a)) (.number (.int b)) = .ok (.number (.int r)) := by
  rw [apply, division_int _ _ _ hb, Number.rem, Number.exactly_of_toInt hq,
    Number.exactly_of_toInt hr]
  rfl

/-- A division without a remainder. -/
theorem div_of_mul {q : Int64} (hb : b ≠ 0) (h : q.toInt * b.toInt = a.toInt) :
    div.apply (.number (.int a)) (.number (.int b)) = .ok (.number (.int q)) := by
  have hzero : b.toInt ≠ 0 := mt Number.toInt_eq_zero_iff.1 hb
  have hrem : a.toInt.tmod b.toInt = 0 := by rw [← h, Int.mul_tmod_left]
  have hquot : q.toInt = a.toInt.tdiv b.toInt := by rw [← h, Int.mul_tdiv_cancel _ hzero]
  rw [apply, division_int _ _ _ hb, Number.div, if_pos hrem, Number.exactly_of_toInt hquot]
  rfl

theorem div_of_tmod_ne (hb : b ≠ 0) (h : a.toInt.tmod b.toInt ≠ 0) :
    ∃ x, div.apply (.number (.int a)) (.number (.int b)) = .ok (.number (.float x)) := by
  rw [apply, division_int _ _ _ hb, Number.div, if_neg h]
  exact ⟨_, rfl⟩

end BinaryOp

/-- `b * ((a - a % b) / b) + a % b` -/
def Expr.recombined (span : Span) (a b : Expr) : Expr :=
  .binary span .add
    (.binary span .mul b (.binary span .div (.binary span .sub a (.binary span .rem a b)) b))
    (.binary span .rem a b)

/-- The multiple of the divisor below the dividend and the remainder add up to the dividend. -/
theorem Expr.eval_recombined {span : Span} {e f : Expr} {q : Int64} (hb : b ≠ 0)
    (hq : q.toInt = a.toInt.tdiv b.toInt) (hr : r.toInt = a.toInt.tmod b.toInt)
    (he : e.eval call m = .ok (.number (.int a)) m)
    (hf : f.eval call m = .ok (.number (.int b)) m) :
    (Expr.recombined span e f).eval call m = .ok (.number (.int a)) m := by
  have hsum : b.toInt * q.toInt + r.toInt = a.toInt := by
    rw [hq, hr, Int.mul_tdiv_add_tmod]
  obtain ⟨d, hd⟩ := (Number.fits_sub_tmod a b.toInt).exists_toInt
  have hmultiple : d.toInt = b.toInt * q.toInt := by rw [hd, ← hr, ← hsum, Int.add_sub_cancel]
  have hrem : (Expr.binary span .rem e f).eval call m = .ok (.number (.int r)) m :=
    Expr.eval_binary_of_ok he hf (BinaryOp.rem_of_toInt hb hq hr)
  have hsub : (Expr.binary span .sub e (.binary span .rem e f)).eval call m =
      .ok (.number (.int d)) m :=
    Expr.eval_binary_of_ok he hrem (Arith.Op.apply_of_toInt .sub (by rw [hd, hr]; rfl))
  have hdiv : (Expr.binary span .div (.binary span .sub e (.binary span .rem e f)) f).eval call m =
      .ok (.number (.int q)) m :=
    Expr.eval_binary_of_ok hsub hf (BinaryOp.div_of_mul hb (by rw [hmultiple, Int.mul_comm]))
  have hmul : (Expr.binary span .mul f (.binary span .div (.binary span .sub e
      (.binary span .rem e f)) f)).eval call m = .ok (.number (.int d)) m :=
    Expr.eval_binary_of_ok hf hdiv (Arith.Op.apply_of_toInt .mul hmultiple)
  refine Expr.eval_binary_of_ok hmul hrem (Arith.Op.apply_of_toInt .add ?_)
  rw [hmultiple]
  exact hsum.symm

/-- Division and remainder of integers agree. Both fail for the divisor zero, and for the least
integer and -1, whose quotient does not fit, and for no other operands. The remainder is that of
the division toward zero; the quotient is an integer exactly if there is none, and then it is
exact, and else it is a double. The operators put the dividend together again. -/
theorem BinaryOp.division_agrees (host : Host) (m : Machine) (span : Span) (a b : Int64) :
    let quotient := div.apply (.number (.int a)) (.number (.int b))
    let remainder := rem.apply (.number (.int a)) (.number (.int b))
    let undefined := b = 0 ∨ a = Int64.minValue ∧ b = -1
    (undefined → (∃ fault, quotient = .error (.typeError fault)) ∧
      ∃ fault, remainder = .error (.typeError fault)) ∧
    (¬undefined → ∃ r : Int64, remainder = .ok (.number (.int r)) ∧
      (∃ t : Int, a.toInt = b.toInt * t + r.toInt) ∧
      r.toInt.natAbs < b.toInt.natAbs ∧ (r.toInt = 0 ∨ r.toInt.sign = a.toInt.sign) ∧
      (r = 0 → ∃ q : Int64, quotient = .ok (.number (.int q)) ∧ q.toInt * b.toInt = a.toInt) ∧
      (r ≠ 0 → ∃ x : Float, quotient = .ok (.number (.float x))) ∧
      host.eval (.recombined span (.literal span (.number (.int a)))
        (.literal span (.number (.int b)))) m = .ok (.number (.int a)) m) := by
  intro quotient remainder undefined
  constructor
  · rintro (rfl | ⟨rfl, rfl⟩) <;> exact ⟨⟨_, rfl⟩, _, rfl⟩
  · intro hdefined
    obtain ⟨hb, hmin⟩ := not_or.1 hdefined
    obtain ⟨q, hq⟩ := (Number.fits_tdiv hb hmin).exists_toInt
    obtain ⟨r, hr⟩ := (Number.fits_tmod (a := a) hb).exists_toInt
    have hsum : a.toInt = b.toInt * q.toInt + r.toInt := by rw [hq, hr, Int.mul_tdiv_add_tmod]
    refine ⟨r, rem_of_toInt hb hq hr, ⟨_, hsum⟩, ?_, ?_, fun hzero => ⟨q, ?_⟩, fun hne => ?_, ?_⟩
    · rw [hr]
      exact Number.natAbs_tmod_lt hb
    · rw [hr]
      exact Number.sign_tmod _ _
    · have hexact : q.toInt * b.toInt = a.toInt := by
        rw [hsum, hzero, Int64.toInt_zero, Int.add_zero, Int.mul_comm]
      exact ⟨div_of_mul hb hexact, hexact⟩
    · refine div_of_tmod_ne hb fun hzero => hne (Number.toInt_eq_zero_iff.1 ?_)
      rw [hr, hzero]
    · exact Expr.eval_recombined hb hq hr (Expr.eval_literal _) (Expr.eval_literal _)

end Scoped
