import Scoped.Proofs.Arithmetic
import Scoped.Proofs.Concatenation
import Scoped.Proofs.Oversized
import Scoped.Proofs.RoundTrip

/-!
# Integers that are printed and read again

The text of an integer is a sign, if there is one, and digits. Only the digits are a literal : a
script that returns the text of a negative integer negates a positive one. So the text of every
integer reads back as the integer (`Interpreter.integers_survive`), but for the least one, whose
digits denote a number that is too large.
-/

namespace Scoped

open Grammar Grammar.Pattern

variable {s : String} {ds : List Char} {l : Literal} {e : Expr} {v : Value}

/-! ## Scripts that return an expression -/

theorem Grammar.Token.stands_after {t : Token} {rest : List Char} (k : Nat) (gap : List Char)
    (ht : t.Valid) (hends : t.Ends rest)
    (hgap : Layout.skip (gap ++ (t.text ++ rest)) = t.text ++ rest) :
    t.Stands ⟨k, gap ++ (t.text ++ rest)⟩ ⟨k + utf8Size gap + utf8Size t.text, rest⟩ := by
  refine ⟨ht, ?_, hends, ?_⟩
  · rw [Place.rest_skip, hgap]
  · rw [Place.skip, Place.split_of_skip hgap]

theorem Program.read_return {text : List Char} {j k : Nat}
    (hs : s.toList = ['r', 'e', 't', 'u', 'r', 'n'] ++ ' ' :: text)
    (he : e.Stands j ⟨6, ' ' :: text⟩ ⟨k, [';']⟩) (hj : j ≤ 9) :
    ∃ p span, Program.read s = .ok p ∧ p.body = [.ret span (some e)] := by
  have hreturn : Token.kwReturn.Stands ⟨0, s.toList⟩ ⟨6, ' ' :: text⟩ := by
    rw [hs]
    exact ⟨Rule.isWord_return.valid, rfl, by rintro c ⟨⟩; rfl, rfl⟩
  have hsemi : (Token.symbol .semicolon).Stands ⟨k, [';']⟩ ⟨k + 1, []⟩ :=
    ⟨trivial, rfl, Symbol.ends_of_extension rfl _, rfl⟩
  obtain ⟨d, hweak, hd⟩ := he.weaken (Nat.zero_le j) hj
  exact ⟨_, _, Program.read_of_stands (.cons (.retValue hreturn hweak (hsemi.congr hd.symm)) .nil)
    rfl, rfl⟩

theorem Program.read_return_digits (hds : (Token.integer ds).Valid)
    (hl : Literal.ofNumeral? ds = some l) : ∃ p span place,
      Program.read ("return " ++ String.ofList ds ++ ";") = .ok p ∧
        p.body = [.ret span (some (.literal place l))] := by
  have hends : (Token.integer ds).Ends [';'] := ⟨rfl, rfl⟩
  have hdigits : (Token.integer ds).Stands ⟨6, [' '] ++ (ds ++ [';'])⟩
      ⟨6 + 1 + utf8Size ds, [';']⟩ :=
    Token.stands_after 6 [' '] hds hends
      ((Layout.skip_blank rfl _).trans (Token.skip_text hds hends))
  have hspelled : l.Spelled (.integer ds) := .numeral trivial hds hl
  obtain ⟨p, span, hread, hbody⟩ := Program.read_return (s := "return " ++ String.ofList ds ++ ";")
    (by simp) (.literal hspelled hdigits) (Nat.le_refl 9)
  exact ⟨p, span, _, hread, hbody⟩

theorem Program.read_return_negated (hds : (Token.integer ds).Valid)
    (hl : Literal.ofNumeral? ds = some l) : ∃ p span place place',
      Program.read ("return -" ++ String.ofList ds ++ ";") = .ok p ∧
        p.body = [.ret span (some (.unary place .minus (.literal place' l)))] := by
  have hends : (Token.integer ds).Ends [';'] := ⟨rfl, rfl⟩
  have hminus : (UnaryOp.token .minus).Stands ⟨6, ' ' :: '-' :: (ds ++ [';'])⟩
      ⟨8, ds ++ [';']⟩ :=
    ⟨trivial, rfl, Symbol.ends_of_extension rfl _, rfl⟩
  have hdigits : (Token.integer ds).Stands ⟨8, ds ++ [';']⟩ ⟨8 + utf8Size ds, [';']⟩ :=
    Token.stands_after 8 [] hds hends (Token.skip_text hds hends)
  have hspelled : l.Spelled (.integer ds) := .numeral trivial hds hl
  have hunary := Expr.Stands.unary hminus (.plain (.inr rfl) (.first (by decide) (by decide)
    (by decide) (.literal hspelled hdigits)))
  obtain ⟨p, span, hread, hbody⟩ := Program.read_return (s := "return -" ++ String.ofList ds ++ ";")
    (by simp) hunary (by decide)
  exact ⟨p, span, _, _, hread, hbody⟩

/-- A script that returns an expression which has a value in every machine. -/
theorem Interpreter.runScript_return (i : Interpreter) (clock : Int64) (printed : Array String)
    {p : Program} {span : Span} (hread : Program.read s = .ok p)
    (hbody : p.body = [.ret span (some e)]) (hcheck : e.check [] = .ok [])
    (heval : ∀ call m, e.eval call m = .ok v m) :
    i.runScript clock s printed = ⟨.ok (some v), i.store, printed⟩ := by
  have hchecked : p.check = .ok () := by
    simp only [Program.check, hbody, Stmt.checkAll, Stmt.check, hcheck, bind, Except.bind]
    rfl
  have hexec (m : Machine) : Host.execAll ⟨clock⟩ p.body m = .ok (.returned v) m := by
    rw [hbody]
    exact Stmt.execAll_cons_of_returned (Stmt.exec_ret_of_ok (heval _ _))
  rw [i.runScript_eq clock hread hchecked]
  simp only [Program.execute, Run.of, Functor.map, EStateM.map, hexec]
  rfl

/-! ## Integers -/

/-- What the text of a value is good for : it is what the value becomes when it is converted, joined
to another text or printed. -/
structure Value.ShownAs (v : Value) (t : String) : Prop where
  str : ∀ clock, Native.str.apply clock [v] = .ok (.string t)
  appended : ∀ s, BinaryOp.add.apply (.string s) v = .ok (.string (s ++ t))
  prepended : ∀ s, BinaryOp.add.apply v (.string s) = .ok (.string (t ++ s))
  printed : ∀ {call span e m m'}, e.eval call m = .ok v m' →
    (Stmt.print span e).exec call m = .ok .normal { m' with printed := m'.printed.push t }

theorem Value.shownAs_render (v : Value) : v.ShownAs v.render where
  str _ := rfl
  appended _ := rfl
  prepended _ := by cases v <;> rfl
  printed := Stmt.exec_print_of_ok

theorem Literal.ofNumeral?_digits {n : Int64} (hds : (Token.integer ds).Valid)
    (hn : n.toInt = Literal.digitsValue ds) :
    Literal.ofNumeral? ds = some (.number (.int n)) := by
  rw [Literal.ofNumeral?_integer hds, Number.ofInt?_of_toInt hn]
  rfl

theorem Interpreter.runScript_digits (i : Interpreter) (clock : Int64) (printed : Array String)
    {n : Int64} (hds : (Token.integer ds).Valid) (hn : n.toInt = Literal.digitsValue ds) :
    i.runScript clock ("return " ++ String.ofList ds ++ ";") printed =
      ⟨.ok (some (.number (.int n))), i.store, printed⟩ := by
  obtain ⟨p, span, place, hread, hbody⟩ :=
    Program.read_return_digits hds (Literal.ofNumeral?_digits hds hn)
  exact i.runScript_return clock printed hread hbody rfl fun _ _ => Expr.eval_literal _

theorem Interpreter.runScript_negated (i : Interpreter) (clock : Int64) (printed : Array String)
    {n k : Int64} (hds : (Token.integer ds).Valid) (hk : k.toInt = Literal.digitsValue ds)
    (hn : n.toInt = -k.toInt) :
    i.runScript clock ("return -" ++ String.ofList ds ++ ";") printed =
      ⟨.ok (some (.number (.int n))), i.store, printed⟩ := by
  obtain ⟨p, span, place, place', hread, hbody⟩ :=
    Program.read_return_negated hds (Literal.ofNumeral?_digits hds hk)
  refine i.runScript_return clock printed hread hbody rfl fun call m => ?_
  rw [Expr.eval_unary_of_operand (Expr.eval_literal _), Value.ofLiteral, Arith.neg_of_toInt hn]
  rfl

theorem Value.render_nonneg {n : Int64} {k : Nat} (h : n.toInt = k) :
    (Value.number (.int n)).render = String.ofList (Nat.toDigits 10 k) := by
  rw [Value.render, Number.render, h, ← Nat.repr_eq_ofList_toDigits]
  rfl

theorem Value.render_neg {n : Int64} {k : Nat} (h : n.toInt = -(k + 1 : Nat)) :
    (Value.number (.int n)).render = "-" ++ String.ofList (Nat.toDigits 10 (k + 1)) := by
  rw [Value.render, Number.render, h, ← Nat.repr_eq_ofList_toDigits]
  rfl

/-- The text of an integer, as a script that returns it, but for the least one. -/
theorem Interpreter.runScript_render (i : Interpreter) (clock : Int64) (printed : Array String)
    {n : Int64} (hmin : n ≠ Int64.minValue) :
    i.runScript clock ("return " ++ (Value.number (.int n)).render ++ ";") printed =
      ⟨.ok (some (.number (.int n))), i.store, printed⟩ := by
  obtain hn | hn := Int.lt_or_le n.toInt 0
  · obtain ⟨k, hk⟩ : ∃ k : Nat, n.toInt = -(k + 1 : Nat) := ⟨n.toInt.natAbs - 1, by omega⟩
    have hleast : n.toInt ≠ -9223372036854775808 := fun h => hmin (Int64.toInt_inj.1 h)
    have hfits := Number.fits_toInt n
    obtain ⟨j, hj⟩ : ∃ j : Int64, j.toInt = -n.toInt := by
      refine Number.Fits.exists_toInt ?_
      unfold Number.Fits at hfits ⊢
      omega
    have hscript : "return " ++ (Value.number (.int n)).render ++ ";" =
        "return -" ++ String.ofList (Nat.toDigits 10 (k + 1)) ++ ";" := by
      rw [Value.render_neg hk, ← String.append_assoc]
      rfl
    rw [hscript]
    refine i.runScript_negated clock printed (k := j) (valid_toDigits _) ?_ ?_
    · rw [Literal.digitsValue_toDigits]
      omega
    · omega
  · obtain ⟨k, hk⟩ := Int.eq_ofNat_of_zero_le hn
    rw [Value.render_nonneg hk]
    refine i.runScript_digits clock printed (valid_toDigits _) ?_
    rw [Literal.digitsValue_toDigits, hk]

/-! ## The least integer -/

/-- A script with one statement is not read if there is an integer in it that is too large. -/
theorem Program.read_of_fault {n : Node} {span : Span} {k : Nat}
    (h : (rule .statement).Locates ⟨0, s.toList⟩ [n] ⟨k, []⟩) (hn : n.faults = [span]) :
    Program.read s = .error (ScriptFault.oversized.at span) := by
  have hend : (rule .statement).Fails [] := EndsBlock.fails_statement (by simp [EndsBlock])
  obtain ⟨chars, hfinish⟩ := locates_endOfInput (c := ⟨k, []⟩) rfl
  obtain ⟨chars', found, hrun, hnodes, -⟩ := run_script ((h.many (.nil hend)).seq hfinish)
  have hmatch : Program.matchScript s.toList = .ok found.parts := by
    rw [Program.matchScript, hrun]
  obtain ⟨⟨depth, hderives⟩, -⟩ := Program.derives_of_matchScript hmatch
  have hfaults : Leaf.faults 0 (Tree.leavesAll .script found.parts) = [span] := by
    rw [← hderives.tallies (by decide) 0, hnodes]
    simp [Node.faults_node, hn]
  have hanswers := Program.answers_read hmatch
  rw [hfaults] at hanswers
  exact hanswers

/-- The statement that returns a negated numeral, of whatever size. -/
theorem Grammar.locates_return_negated {t : Token} {c m m₁ m' d : Place} (ht : t.Stands m₁ m')
    (hn : t.IsNumeral)
    (hothers : ∀ r ∈ [Rule.functionExpression, .nilLiteral, .booleanLiteral, .unaryOperator],
      r.rejects Rule.topRank t.text.head? = true)
    (hreturn : Token.kwReturn.Stands c m) (hminus : (UnaryOp.token .minus).Stands m m₁)
    (hsemi : (Token.symbol .semicolon).Stands m' d) (hm' : m'.skip = m') :
    ∃ n, (rule .statement).Locates c [n] d ∧
      n.faults = if Literal.Oversized t.text then [m₁.upTo m'] else [] := by
  have hs : Stops 0 m'.rest := stops_of_symbol (by simp) hsemi.lexes
  obtain ⟨n, hoperand, hnumeral⟩ := locates_numeral ht hn hothers hm' hs
  have hop := hminus.locates_leaf (UnaryOp.takes .minus) (by decide)
  have hbody : (Rule.body .unaryExpression).Locates m _ m' := .alt_left (hop.seq hoperand)
  obtain ⟨chars, hunary⟩ := Locates.rule (r := .unaryExpression) rfl hbody
  have hhead : (Layout.skip m.rest).head? = some '-' := hminus.lexes.head? trivial
  obtain ⟨e, he, hfaults⟩ := locates_expression hunary hm' hs
    (Rule.fails_of_rejects hhead (by decide))
  have hreturned : (Rule.body .returnStatement).Locates c [e] d :=
    hreturn.locates_opener Rule.isWord_return (he.optional_some.seq hsemi.locates_symbol)
  obtain ⟨chars', hinner⟩ := Locates.rule (r := .returnStatement) rfl hreturned
  have hword := ((lexes_word Rule.isWord_return.valid.2).1 hreturn.lexes).1
  have hfn : (rule .functionDeclaration).Fails c.rest :=
    fails_statementWord (w := ['f', 'n']) (by simp [statementWords]) (by rw [hword]; decide)
  have hlet : (rule .variableDeclaration).Fails c.rest :=
    fails_statementWord (w := ['l', 'e', 't']) (by simp [statementWords]) (by rw [hword]; decide)
  have hprint : (rule .printStatement).Fails c.rest :=
    fails_statementWord (w := ['p', 'r', 'i', 'n', 't']) (by simp [statementWords])
      (by rw [hword]; decide)
  have hstatement : (Rule.body .statement).Locates c _ d :=
    .alt_right hfn (.alt_right hlet (.alt_right hprint (.alt_left hinner)))
  obtain ⟨chars'', hnode⟩ := Locates.rule (r := .statement) rfl hstatement
  refine ⟨_, hnode, ?_⟩
  simp [Node.faults_node, hfaults, hnumeral]

/-- The digits of the least integer denote a number that is too large. -/
theorem Program.read_return_least : Program.read "return -9223372036854775808;" =
    .error (ScriptFault.oversized.at ⟨8, 27⟩) := by
  have hreturn : Token.kwReturn.Stands ⟨0, "return -9223372036854775808;".toList⟩
      ⟨6, " -9223372036854775808;".toList⟩ :=
    ⟨Rule.isWord_return.valid, rfl, by rintro c ⟨⟩; rfl, rfl⟩
  have hminus : (UnaryOp.token .minus).Stands ⟨6, " -9223372036854775808;".toList⟩
      ⟨8, "9223372036854775808;".toList⟩ :=
    ⟨trivial, rfl, Symbol.ends_of_extension rfl _, rfl⟩
  have hdigits : (Token.integer "9223372036854775808".toList).Stands
      ⟨8, "9223372036854775808;".toList⟩ ⟨27, [';']⟩ :=
    ⟨⟨by simp, List.all_eq_true.1 rfl⟩, rfl, ⟨rfl, rfl⟩, rfl⟩
  have hsemi : (Token.symbol .semicolon).Stands ⟨27, [';']⟩ ⟨28, []⟩ :=
    ⟨trivial, rfl, Symbol.ends_of_extension rfl _, rfl⟩
  obtain ⟨n, hn, hfaults⟩ :=
    locates_return_negated hdigits trivial (by decide) hreturn hminus hsemi rfl
  have hlarge : Literal.Oversized "9223372036854775808".toList := by decide
  rw [Token.text, if_pos hlarge] at hfaults
  exact Program.read_of_fault hn hfaults

/-- Integers survive printing and reading : a script that returns the text of an integer returns the
integer. So does one that returns any digits of a number that is not too large. Only the text of the
least integer is no script, since its digits are no literal. -/
theorem Interpreter.integers_survive (i : Interpreter) (clock : Int64) (printed : Array String) :
    (∀ n : Int64, ∃ t, (Value.number (.int n)).ShownAs t ∧
      (n ≠ Int64.minValue → i.runScript clock ("return " ++ t ++ ";") printed =
        ⟨.ok (some (.number (.int n))), i.store, printed⟩) ∧
      (n = Int64.minValue → t = "-" ++ "9223372036854775808" ∧
        i.runScript clock ("return " ++ t ++ ";") printed =
          ⟨.error (ScriptFault.oversized.at ⟨"return -".utf8ByteSize,
            "return -9223372036854775808".utf8ByteSize⟩), i.store, printed⟩)) ∧
    ∀ (ds : List Char) (k : Nat), ds ≠ [] → (∀ d ∈ ds, d.isDigit = true) →
      k = Nat.ofDigits 10 (ds.reverse.map fun c => c.toNat - '0'.toNat) → k ≤ 2 ^ 63 - 1 →
      ∃ n : Int64, n.toInt = k ∧ Literal.ofNumeral? ds = some (.number (.int n)) ∧
        i.runScript clock ("return " ++ String.ofList ds ++ ";") printed =
          ⟨.ok (some (.number (.int n))), i.store, printed⟩ := by
  refine ⟨fun n => ⟨_, Value.shownAs_render _, i.runScript_render clock printed, ?_⟩,
    fun ds k hne hdigits hk hmax => ?_⟩
  · rintro rfl
    refine ⟨rfl, ?_⟩
    have hread : Program.read ("return " ++ (Value.number (.int Int64.minValue)).render ++ ";") =
        .error (ScriptFault.oversized.at ⟨8, 27⟩) := Program.read_return_least
    rw [Interpreter.runScript, hread]
    rfl
  · rw [← Literal.digitsValue_eq_ofDigits] at hk
    obtain ⟨n, hn⟩ : ∃ n : Int64, n.toInt = k := by
      refine Number.Fits.exists_toInt ?_
      unfold Number.Fits
      omega
    have hvalue : n.toInt = Literal.digitsValue ds := by rw [hn, hk]
    exact ⟨n, hn, Literal.ofNumeral?_digits ⟨hne, hdigits⟩ hvalue,
      i.runScript_digits clock printed ⟨hne, hdigits⟩ hvalue⟩

end Scoped
