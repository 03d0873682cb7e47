import Scoped.Proofs.Scripts
import Scoped.Proofs.Standing

/-!
# What stands in a script is read

A program that stands in a text is read from it, with the spans that it has there. The rule for one
strength reads the operands of the next, as many as there are operators between them. So an
expression is found in two steps : `Expr.Open` says that it is read where more operators of the same
strength may follow, and what follows decides that none does (`Stops`).

The induction is on how the program stands there. A text whose tokens denote a program is read as
well : the program stands there with suitable spans (`Program.read_of_lexes`).
-/

namespace Scoped

open Grammar Grammar.Pattern
open Grammar.Layout (skip)

variable {cs rest : List Char} {ts : List Token} {c c' d m m' : Place} {ns ms : List Node}
  {e f l r : Expr} {k : Nat}

/-! ## What ends an expression -/

/-- The characters that can follow an expression, each with the least strength that it ends. -/
def Grammar.stoppers : List (Nat × Char) :=
  [(0, ')'), (0, ','), (0, ';'), (2, 'o'), (3, 'a'), (4, '='), (4, '!'), (5, '<'), (5, '>'),
    (6, '+'), (6, '-'), (7, '*'), (7, '/'), (7, '%'), (9, '(')]

/-- No operator of strength `k` or more follows. -/
def Grammar.Stops (k : Nat) (rest : List Char) : Prop :=
  ∃ p ∈ stoppers, p.1 ≤ k ∧ (skip rest).head? = some p.2

theorem Grammar.Stops.mono {j k : Nat} (h : Stops j rest) (hjk : j ≤ k) : Stops k rest := by
  obtain ⟨p, hmem, hp, hhead⟩ := h
  exact ⟨p, hmem, hp.trans hjk, hhead⟩

theorem Grammar.Stops.skip (h : Stops k (skip rest)) : Stops k rest := by
  rw [Stops, Layout.skip_skip] at h
  exact h

theorem Grammar.stops_of_lexes {t : Token} {k : Nat} (h : Lexes (t :: ts) cs rest)
    (ht : t.Valid) (hstop : ∃ p ∈ stoppers, p.1 ≤ k ∧ t.text.head? = some p.2) : Stops k cs := by
  rw [← h.head? ht] at hstop
  exact hstop

theorem Connective.stops (c : Connective) (h : Lexes (c.token :: ts) cs rest) :
    Stops (c.strength + 1) cs := by
  have hvalid := c.valid_token
  cases c with
  | binary op =>
    cases op <;> exact stops_of_lexes h hvalid (by decide)
  | logical op =>
    cases op <;> exact stops_of_lexes h hvalid (by decide)

theorem Grammar.Stops.fails_operator {k : Nat} (h : Stops k rest) (hk : 1 ≤ k) (hk' : k ≤ 6) :
    (rule (.operator k)).Fails rest := by
  have hall : ∀ p ∈ stoppers, ∀ k < 7, 1 ≤ k → p.1 ≤ k →
      (Rule.operator k).rejects Rule.topRank (some p.2) = true := by decide
  obtain ⟨p, hmem, hp, hhead⟩ := h
  exact Rule.fails_of_rejects hhead (hall p hmem k (by omega) hk hp)

theorem Grammar.Stops.fails_arguments (h : Stops 8 rest) : (rule .arguments).Fails rest := by
  have hall : ∀ p ∈ stoppers, p.1 ≤ 8 →
      Rule.arguments.rejects Rule.topRank (some p.2) = true := by decide
  obtain ⟨p, hmem, hp, hhead⟩ := h
  exact Rule.fails_of_rejects hhead (hall p hmem hp)

/-! ## Chains -/

theorem Expr.chainOfNodes_append {connective : Node → Except Error Connective} {owner : Rule}
    {span : Span} {e : Expr} : ∀ {ns : List Node} {left : Expr},
    Expr.chainOfNodes connective owner span left ns = .ok e → ∀ ms,
      Expr.chainOfNodes connective owner span left (ns ++ ms) =
        Expr.chainOfNodes connective owner span e ms
  | [], left, h, ms => by
    cases h
    rfl
  | [op], left, h, ms => by
    obtain ⟨o, -, h⟩ := bind_eq_ok.1 h
    cases h
  | op :: ⟨label, place, chars, children⟩ :: ns, left, h, ms => by
    obtain ⟨o, hop, h⟩ := bind_eq_ok.1 h
    obtain ⟨right, hright, h⟩ := bind_eq_ok.1 h
    rw [List.cons_append, List.cons_append, Expr.chainOfNodes_cons hop, hright]
    exact Expr.chainOfNodes_append h ms

theorem Expr.callsOfNodes_append {start : Nat} {e : Expr} : ∀ {ns : List Node} {callee : Expr},
    Expr.callsOfNodes start callee ns = .ok e → ∀ ms,
      Expr.callsOfNodes start callee (ns ++ ms) = Expr.callsOfNodes start e ms
  | [], callee, h, ms => by
    cases h
    rfl
  | ⟨label, span, chars, args⟩ :: ns, callee, h, ms => by
    obtain ⟨es, hargs, h⟩ := bind_eq_ok.1 h
    rw [List.cons_append, Expr.callsOfNodes]
    simp only [hargs, bind, Except.bind]
    exact Expr.callsOfNodes_append h ms

/-- The closing symbols end every expression. -/
theorem Grammar.stops_of_symbol {s : Symbol} (hs : s ∈ [.closeParen, .comma, .semicolon])
    (h : Lexes (.symbol s :: ts) cs rest) : Stops k cs := by
  have hall : ∀ s ∈ [Symbol.closeParen, .comma, .semicolon],
      ∃ p ∈ stoppers, p.1 ≤ 0 ∧ (Token.symbol s).text.head? = some p.2 := by decide
  exact (stops_of_lexes h trivial (hall s hs)).mono (Nat.zero_le k)

/-! ## What is not read -/

theorem Expr.Spelled.fails_unary (h : e.Spelled 8 ts) (hlex : Lexes ts cs rest) :
    (phrase [rule .unaryOperator] (rule .unaryExpression)).Fails cs := by
  obtain hf | ⟨ns, rest', hreads⟩ := fails_or_reads
    (phrase [rule .unaryOperator] (rule .unaryExpression)) cs
  · exact hf
  · obtain ⟨op, ms, mid, hop, -⟩ := reads_unary.1 hreads
    have hvalid := h.valid
    obtain ⟨t, us, rfl, -, hne⟩ := h.front
    obtain ⟨mid', hfirst, -⟩ := lexes_cons.1 hlex
    have heq := (hfirst.unique hop (hvalid t (by simp)) op.valid_token).1
    exact absurd heq (hne (Nat.le_refl 8) op)

theorem Expr.Spelled.fails_assignment (h : e.Spelled 1 ts) (hlex : Lexes ts cs rest)
    (hs : Stops 1 rest) : (rule .assignmentExpression).Fails cs := by
  obtain hf | ⟨ns, rest', hreads⟩ := fails_or_reads (rule .assignmentExpression) cs
  · exact hf
  · obtain ⟨text, ms, -, hbody⟩ := reads_rule rfl hreads
    obtain ⟨w, -, mid, hw, hassign, -⟩ := reads_assignment.1 hbody
    obtain ⟨mid₁, hword, hassign⟩ := lexes_cons.1 hassign
    have hvalid := h.valid
    have hsecond := h.second (Nat.le_refl 1)
    obtain ⟨t, us, rfl, -⟩ := h.front
    obtain ⟨mid₂, hfirst, hus⟩ := lexes_cons.1 hlex
    obtain ⟨-, hmid⟩ := hfirst.unique hword (hvalid t (by simp)) ⟨hw.1, hw.2.1⟩
    cases us with
    | nil =>
      -- what follows the expression is not the sign of an assignment
      obtain ⟨p, hmem, hp, hhead⟩ := hs
      have hall : ∀ p ∈ stoppers, p.1 ≤ 1 → p.2 ≠ '=' := by decide
      have heq : (skip mid₁).head? = some '=' := hassign.head? trivial
      rw [← hmid, hus, hhead] at heq
      exact absurd (Option.some.inj heq) (hall p hmem hp)
    | cons u us =>
      obtain ⟨mid₃, hu, -⟩ := lexes_cons.1 hus
      have heq := (hu.unique (hassign.congr hmid.symm rfl) (hvalid u (by simp)) trivial).1
      exact absurd (congrArg some heq) hsecond

theorem Grammar.fails_functionExpression (h : word (skip cs) ≠ ['f', 'n']) :
    (rule .functionExpression).Fails cs :=
  fails_rule.2 (fails_opener Rule.isWord_fn h)

/-- The end of a block or of the script. -/
def Grammar.EndsBlock (rest : List Char) : Prop := (skip rest).head? ∈ [none, some '\x7d']

theorem Grammar.EndsBlock.fails_statement (h : EndsBlock rest) : (rule .statement).Fails rest := by
  have hall : ∀ c ∈ [none, some '\x7d'], Rule.statement.rejects Rule.topRank c = true := by decide
  exact Rule.fails_of_rejects rfl (hall _ h)

theorem Grammar.EndsBlock.word_ne (h : EndsBlock rest) {w : List Char} (hw : (Token.word w).Valid) :
    word (skip rest) ≠ w := by
  intro heq
  obtain ⟨⟨c, w', rfl, hc⟩, -⟩ := hw
  have hhead : (skip rest).head? = some c := by
    rw [← word_append_afterWord (skip rest), heq]
    rfl
  rw [EndsBlock, hhead] at h
  simp only [List.mem_cons, reduceCtorEq, Option.some.injEq, List.not_mem_nil, or_false,
    false_or] at h
  subst h
  cases hc

theorem Grammar.endsBlock_of_lexes (h : Lexes [.symbol .closeBrace] cs rest) : EndsBlock cs := by
  have hhead : (skip cs).head? = some '\x7d' := h.head? trivial
  rw [EndsBlock, hhead]
  simp

/-- The reserved words that start statements, and the rules for these statements. -/
def Grammar.statementWords : List (List Char × Rule) :=
  [(['f', 'n'], .functionDeclaration), (['l', 'e', 't'], .variableDeclaration),
    (['p', 'r', 'i', 'n', 't'], .printStatement),
    (['r', 'e', 't', 'u', 'r', 'n'], .returnStatement), (['i', 'f'], .ifStatement)]

theorem Grammar.valid_statementWord {w : List Char} {r : Rule} (h : (w, r) ∈ statementWords) :
    (Token.word w).Valid := by
  have hall : ∀ p ∈ statementWords, p.1 ∈ keywords := by decide
  exact Token.valid_keyword (hall _ h)

theorem Grammar.fails_statementWord {w : List Char} {r : Rule} (h : (w, r) ∈ statementWords)
    (hw : word (skip cs) ≠ w) : (rule r).Fails cs := by
  simp only [statementWords, List.mem_cons, Prod.mk.injEq, List.not_mem_nil, or_false] at h
  rw [fails_rule]
  obtain ⟨rfl, rfl⟩ | ⟨rfl, rfl⟩ | ⟨rfl, rfl⟩ | ⟨rfl, rfl⟩ | ⟨rfl, rfl⟩ := h
  · exact fails_opener Rule.isWord_fn hw
  · exact fails_opener Rule.isWord_let hw
  · exact fails_opener Rule.isWord_print hw
  · exact fails_opener Rule.isWord_return hw
  · exact fails_opener Rule.isWord_if hw

/-- The statements that start with a reserved word are tried first, and expressions last. -/
theorem Grammar.body_statement : Rule.body .statement =
    choice (statementWords.map (fun p => rule p.2) ++ [rule .blockStatement])
      (rule .expressionStatement) :=
  rfl

/-- No statement of another kind starts where an expression stands. -/
theorem Expr.Spelled.fails_statement (h : e.Spelled 0 ts) (hlex : Lexes ts cs rest) :
    ∀ q ∈ statementWords.map (fun p => rule p.2) ++ [rule .blockStatement], q.Fails cs := by
  have hvalid := h.valid
  have hfn := h.after_fn
  obtain ⟨t, us, rfl, hstarts, -⟩ := h.front
  have ht := hvalid t (by simp)
  obtain ⟨mid₁, hfirst, hus⟩ := lexes_cons.1 hlex
  have hdeclaration : (rule .functionDeclaration).Fails cs := by
    obtain hf | ⟨ms, rest', hreads⟩ := fails_or_reads (rule .functionDeclaration) cs
    · exact hf
    · obtain ⟨chars, ms', -, hbody⟩ := reads_rule rfl hreads
      obtain ⟨w, ns₁, ns₂, mid', mid'', hw, hlex', -⟩ := reads_functionDeclaration.1 hbody
      obtain ⟨mid₂, hkw, hname⟩ := lexes_cons.1 hlex'
      obtain ⟨rfl, hmid⟩ := hfirst.unique hkw ht Rule.isWord_fn.valid
      -- a function without a name
      obtain ⟨vs, rfl⟩ : ∃ vs, us = .symbol .openParen :: vs :=
        List.head?_eq_some_iff.1 (hfn us rfl)
      obtain ⟨mid₃, hparen, -⟩ := lexes_cons.1 hus
      have hvalid' : (Token.word w).Valid := ⟨hw.1, hw.2.1⟩
      obtain ⟨heq, -⟩ := hparen.unique (hname.congr hmid.symm rfl) trivial hvalid'
      cases heq
  have hblock : (rule .blockStatement).Fails cs := by
    obtain hf | ⟨ms, rest', hreads⟩ := fails_or_reads (rule .blockStatement) cs
    · exact hf
    · obtain ⟨chars, ms', -, hbody⟩ := reads_rule rfl hreads
      obtain ⟨mid₂, mid₃, ho, -⟩ := reads_braced.1 hbody
      obtain ⟨rfl, -⟩ := hfirst.unique ho ht trivial
      simp [Token.StartsExpr] at hstarts
  have hwords : ∀ p ∈ statementWords, (rule p.2).Fails cs := by
    have hall : ∀ p ∈ statementWords.tail, p.1 ∈ [['l', 'e', 't'], ['p', 'r', 'i', 'n', 't'],
        ['r', 'e', 't', 'u', 'r', 'n'], ['i', 'f'], ['e', 'l', 's', 'e']] := by decide
    refine List.forall_mem_cons.2 ⟨hdeclaration, fun p hp => ?_⟩
    exact fails_statementWord (.tail _ hp) fun heq => hstarts.ne_word (hall p hp)
      ((hfirst.word_eq_iff ht (valid_statementWord (.tail _ hp))).1 heq)
  refine List.forall_mem_append.2 ⟨List.forall_mem_map.2 hwords, ?_⟩
  simpa using hblock

/-! ## Expressions where more may follow -/

/-- The rule for strength `k` reads the expression. -/
def Expr.Read (k : Nat) (e : Expr) (c d : Place) : Prop :=
  ∃ n, (rule (.ofStrength k)).Locates c [n] d ∧ Expr.ofNode n = .ok e

/-- The expression is read as an operand and some operators of strength `k` with operands. -/
def Expr.Chained (k : Nat) (e : Expr) (c d : Place) : Prop :=
  ∃ n first ns m, (rule (.ofStrength (k + 1))).Locates c [n] m ∧ Expr.ofNode n = .ok first ∧
    (phrase [rule (.operator k)] (rule (.ofStrength (k + 1)))).Further m ns d ∧
    ∀ span : Span, span.start = c.skip.offset →
      Expr.chainOfNodes (Connective.reader k) (.ofStrength k) span first ns = .ok e

/-- The expression is read as a function and some argument lists. -/
def Expr.Called (e : Expr) (c d : Place) : Prop :=
  ∃ n callee ns m, (rule .primaryExpression).Locates c [n] m ∧ Expr.ofNode n = .ok callee ∧
    (rule .arguments).Further m ns d ∧ Expr.callsOfNodes c.skip.offset callee ns = .ok e

/-- The expression is read at strength `k`, where more of the same strength may follow. -/
def Expr.Open (k : Nat) (e : Expr) (c d : Place) : Prop :=
  if k = 8 then e.Called c d
  else if 1 ≤ k ∧ k ≤ 6 then e.Chained k c d
  else e.Read k c d

theorem Expr.open_chained (hk : 1 ≤ k) (hk' : k ≤ 6) : e.Open k c d ↔ e.Chained k c d := by
  rw [Expr.Open, if_neg (by omega), if_pos ⟨hk, hk'⟩]

theorem Grammar.Rule.kind_ofStrength (hk : 1 ≤ k) (hk' : k ≤ 8) :
    (Rule.ofStrength k).kind = .normal := by
  interval_cases k <;> rfl

theorem Grammar.Rule.body_ofStrength (hk : 1 ≤ k) (hk' : k ≤ 6) : (Rule.ofStrength k).body =
    separated (rule (.ofStrength (k + 1))) (rule (.operator k)) := by
  interval_cases k <;> rfl

/-- No operator of its strength follows the chain. -/
theorem Expr.Chained.read (h : e.Chained k c d) (hk : 1 ≤ k) (hk' : k ≤ 6)
    (hs : Stops k d.rest) : e.Read k c d := by
  obtain ⟨n, first, ns, m, hn, hfirst, hfurther, hchain⟩ := h
  have hbody : (Rule.ofStrength k).body.Locates c (n :: ns) d := by
    rw [Rule.body_ofStrength hk hk']
    exact hn.seq (hfurther.many_end (hs.fails_operator hk hk').seq_left)
  obtain ⟨text, hnode⟩ := hbody.rule (Rule.kind_ofStrength hk (by omega))
  refine ⟨_, hnode, ?_⟩
  rw [Expr.ofNode_chain hk hk', hfirst]
  exact hchain _ rfl

/-- An operand alone is a chain, with the layout after it. -/
theorem Expr.Read.chained (h : e.Read (k + 1) c d) : e.Chained k c d.skip := by
  obtain ⟨n, hn, hok⟩ := h
  exact ⟨n, e, [], d, hn, hok, .nil, fun _ _ => rfl⟩

/-- No argument list follows the call. -/
theorem Expr.Called.read (h : e.Called c d) (hs : Stops 8 d.rest) : e.Read 8 c d := by
  obtain ⟨n, callee, ns, m, hn, hcallee, hfurther, hcalls⟩ := h
  have hbody : (Rule.body .callExpression).Locates c (n :: ns) d :=
    hn.seq (hfurther.many_end hs.fails_arguments)
  obtain ⟨text, hnode⟩ := Locates.rule (r := .callExpression) rfl hbody
  refine ⟨_, hnode, ?_⟩
  show (do Expr.callsOfNodes c.skip.offset (← Expr.ofNode n) ns) = _
  rw [hcallee]
  exact hcalls

theorem Expr.Read.called (h : e.Read 9 c d) : e.Called c d.skip := by
  obtain ⟨n, hn, hok⟩ := h
  exact ⟨n, e, [], d, hn, hok, .nil, rfl⟩

/-- An expression that does not start with an operator. -/
theorem Expr.Read.unary_of_call (h : e.Read 8 c d)
    (hf : (phrase [rule .unaryOperator] (rule .unaryExpression)).Fails c.rest) : e.Read 7 c d := by
  obtain ⟨n, hn, hok⟩ := h
  have hbody : (Rule.body .unaryExpression).Locates c [n] d := .alt_right hf hn
  obtain ⟨text, hnode⟩ := Locates.rule (r := .unaryExpression) rfl hbody
  exact ⟨_, hnode, Expr.ofNode_singleton.2 hok⟩

/-- An expression that is no assignment. -/
theorem Expr.Read.expression_of_or (h : e.Read 1 c d)
    (hf : (rule .assignmentExpression).Fails c.rest) : e.Read 0 c d := by
  obtain ⟨n, hn, hok⟩ := h
  have hbody : (Rule.body .expression).Locates c [n] d := .alt_right hf hn
  exact ⟨n, hbody.silent rfl, hok⟩

theorem Expr.Open.read (h : e.Open k c d) (hk : k ≤ 9) (hs : k ≤ 8 → Stops k d.rest) :
    e.Read k c d := by
  rcases (by omega : k = 9 ∨ k = 8 ∨ k = 7 ∨ (1 ≤ k ∧ k ≤ 6) ∨ k = 0) with
    rfl | rfl | rfl | ⟨hk, hk'⟩ | rfl
  · exact h
  · exact Expr.Called.read h (hs (Nat.le_refl 8))
  · exact h
  · exact ((Expr.open_chained hk hk').1 h).read hk hk' (hs (by omega))
  · exact h

/-- A first operand, with the layout after it. -/
theorem Expr.Open.first (h : e.Open (k + 1) c d) (hk : k ≤ 8) (hzero : k ≠ 0) (hseven : k ≠ 7)
    (hs : k ≤ 7 → Stops (k + 1) d.rest) : e.Open k c d.skip := by
  have hread := h.read (by omega) fun _ => hs (by omega)
  rcases (by omega : k = 8 ∨ (1 ≤ k ∧ k ≤ 6)) with rfl | ⟨hone, hsix⟩
  · exact hread.called
  · exact (Expr.open_chained hone hsix).2 hread.chained

/-- What has no operator before it, or is no assignment. -/
theorem Expr.Open.plain (h : e.Open (k + 1) c d) (hk : k = 0 ∨ k = 7) (hs : Stops (k + 1) d.rest)
    (hspelled : e.Spelled (k + 1) ts) (hlex : Lexes ts c.rest d.rest) : e.Open k c d := by
  have hread := h.read (by omega) fun _ => hs
  obtain rfl | rfl := hk
  · exact hread.expression_of_or (hspelled.fails_assignment hlex hs)
  · exact hread.unary_of_call (hspelled.fails_unary hlex)

/-! ## Operators -/

theorem Grammar.Rule.operator_ne_silent (o : Connective) :
    (Rule.operator o.strength).kind ≠ .silent := by
  cases o with
  | binary op => cases op <;> decide
  | logical op => cases op <;> decide

theorem Expr.Chained.join {o : Connective} (hl : l.Chained o.strength c m)
    (ho : o.token.Stands m m') (hr : r.Read (o.strength + 1) m' d) :
    (o.join (c.upTo d) l r).Chained o.strength c d := by
  have hone := o.one_le_strength
  have hsix := o.strength_le_six
  obtain ⟨n, first, ns, m₁, hn, hfirst, hfurther, hchain⟩ := hl
  obtain ⟨n', hn', hok⟩ := hr
  have hop := ho.locates_leaf (Connective.takes o) (Rule.operator_ne_silent o)
  refine ⟨n, first, _, m₁, hn, hfirst, .snoc hfurther (hop.seq hn'), fun span hstart => ?_⟩
  have hkind := Rule.kind_ofStrength (k := o.strength + 1) (by omega) (by omega)
  have hspan : n'.span = m'.upTo d := hn'.span (by rw [hkind]; simp)
  rw [Expr.chainOfNodes_append (hchain span hstart), List.singleton_append,
    Expr.chainOfNodes_cons o.reader_node, hok, hspan, hstart]
  rfl

theorem Expr.Read.unary {op : UnaryOp} (h : e.Read 7 m d) (hop : op.token.Stands c m) :
    (Expr.unary (c.upTo d) op e).Read 7 c d := by
  obtain ⟨n, hn, hok⟩ := h
  have hop := hop.locates_leaf (UnaryOp.takes op) (by decide)
  have hbody : (Rule.body .unaryExpression).Locates c _ d := .alt_left (hop.seq hn)
  obtain ⟨text, hnode⟩ := Locates.rule (r := .unaryExpression) rfl hbody
  refine ⟨_, hnode, ?_⟩
  rw [List.singleton_append, Expr.ofNode_unary rfl op.ofNode_node, hok]
  rfl

theorem Ident.Stands.locates {x : Ident} (h : x.Stands c d) :
    (rule .identifier).Locates c [x.node] d := by
  have hleaf := h.token.locates_leaf (takes_identifier h.wellFormed) (by decide)
  rw [← h.span] at hleaf
  exact hleaf

theorem Expr.Read.assign {x : Ident} (h : e.Read 0 m' d) (hx : x.Stands c m)
    (ha : (Token.symbol .assign).Stands m m') : (Expr.assign (c.upTo d) x e).Read 0 c d := by
  obtain ⟨n, hn, hok⟩ := h
  have hahead : ¬(rule .assignOperator).Fails m.rest := fun hf =>
    fails_assignOperator.1 hf _ ha.lexes
  have hsign : (text ['=']).Locates m.skip [] m' := (ha.congr m.skip_skip.symm).locates_symbol
  have hbody : (Rule.body .assignmentExpression).Locates c [x.node, n] d :=
    hx.locates.seq ((Locates.ahead hahead).seq (hsign.seq hn))
  obtain ⟨text, hnode⟩ := Locates.rule (r := .assignmentExpression) rfl hbody
  have hexpr : (Rule.body .expression).Locates c _ d := .alt_left hnode
  refine ⟨_, hexpr.silent rfl, ?_⟩
  simp only [Expr.ofNode, hok, bind, Except.bind, x.ofNode_node]
  rfl

theorem Expr.Called.call (hf : f.Called c m) {chars : List Char} {args : List Expr}
    (hargs : (rule .arguments).Locates m [⟨.arguments, m.upTo d, chars, ns⟩] d)
    (hall : Expr.allOfNodes ns = .ok args) : (Expr.call (c.upTo d) f args).Called c d := by
  obtain ⟨n, callee, ms, m₁, hn, hcallee, hfurther, hcalls⟩ := hf
  refine ⟨n, callee, _, m₁, hn, hcallee, .snoc hfurther hargs, ?_⟩
  rw [Expr.callsOfNodes_append hcalls]
  simp only [Expr.callsOfNodes, hall, bind, Except.bind]
  rfl

/-! ## Primary expressions -/

/-- A literal is read as one token, by the first of four rules that takes it. -/
theorem Literal.Spelled.locates {v : Literal} {t : Token} (h : v.Spelled t) (ht : t.Stands c d) :
    ∃ n, (rule .literal).Locates c [n] d ∧ n.erase = t.literalNode ∧ n.span = c.upTo d := by
  have hbody : ∃ n, (Rule.body .literal).Locates c [n] d ∧ n.erase = t.literalNode ∧
      n.span = c.upTo d := by
    obtain h | ⟨hnil, h⟩ | ⟨hnil, hbool, h⟩ | ⟨hnil, hbool, hnum, h⟩ :=
      h.isLiteral.takes h.valid ht.lexes
    · obtain ⟨n, hn, hnode⟩ := ht.locates h (by decide)
      exact ⟨n, .alt_left hn, hnode⟩
    · obtain ⟨n, hn, hnode⟩ := ht.locates h (by decide)
      exact ⟨n, .alt_right hnil (.alt_left hn), hnode⟩
    · obtain ⟨n, hn, hnode⟩ := ht.locates h (by decide)
      exact ⟨n, .alt_right hnil (.alt_right hbool (.alt_left hn)), hnode⟩
    · obtain ⟨n, hn, hnode⟩ := ht.locates h (by decide)
      exact ⟨n, .alt_right hnil (.alt_right hbool (.alt_right hnum hn)), hnode⟩
  obtain ⟨n, hn, hnode⟩ := hbody
  exact ⟨n, hn.silent rfl, hnode⟩

theorem Literal.Spelled.read {v : Literal} {t : Token} (h : v.Spelled t) (ht : t.Stands c d) :
    (Expr.literal (c.upTo d) v).Read 9 c d := by
  have hfn : word (skip c.rest) ≠ ['f', 'n'] := by
    intro heq
    obtain rfl := (ht.lexes.word_eq_iff h.valid Rule.isWord_fn.valid).1 heq
    exact absurd h.isLiteral (by simp [Token.IsLiteral])
  obtain ⟨n, hn, herase, hspan⟩ := h.locates ht
  have hbody : (Rule.body .primaryExpression).Locates c [n] d :=
    .alt_right (fails_functionExpression hfn) (.alt_left hn)
  refine ⟨n, hbody.silent rfl, ?_⟩
  have hrule : n.rule = n.erase.rule := by
    cases n
    rfl
  have hok : Literal.ofNode n = .ok v := by
    have herased := (Literal.ofNode_literalNode h.isLiteral h.valid).2 h
    rw [← herase] at herased
    obtain ⟨_, hok, rfl⟩ := (Literal.mirrors_ofNode n).ok_iff.1 herased
    exact hok
  rw [Expr.ofNode_literal (by rw [hrule, herase]; exact t.rule_literalNode), hok, hspan]
  rfl

theorem Ident.Stands.read {x : Ident} (h : x.Stands c d) : (Expr.ident x).Read 9 c d := by
  have hlex := h.token.lexes
  have hvalid := h.wellFormed.valid
  have hfn : word (skip c.rest) ≠ ['f', 'n'] := by
    intro heq
    have htoken := (hlex.word_eq_iff hvalid Rule.isWord_fn.valid).1 heq
    injection htoken with hname
    have hwell := h.wellFormed
    rw [Ident.WellFormed, hname] at hwell
    exact absurd hwell (by decide)
  have hliteral : (rule .literal).Fails c.rest := by
    obtain hf | ⟨ns, rest', hreads⟩ := fails_or_reads (rule .literal) c.rest
    · exact hf
    · obtain ⟨t, ht, hvalid', hlex', -⟩ := reads_literal.1 hreads
      obtain ⟨rfl, -⟩ := hlex.unique hlex' hvalid hvalid'
      have hall : ∀ w ∈ [['n', 'i', 'l'], ['t', 'r', 'u', 'e'], ['f', 'a', 'l', 's', 'e']],
          ¬IsName w := by decide
      exact absurd h.wellFormed (hall _ ht)
  have hbody : (Rule.body .primaryExpression).Locates c [x.node] d :=
    .alt_right (fails_functionExpression hfn) (.alt_right hliteral (.alt_left h.locates))
  refine ⟨x.node, hbody.silent rfl, ?_⟩
  exact congrArg (fun y => Except.ok (Expr.ident y)) x.ofNode_node

theorem Expr.Read.group (h : e.Read 0 m m') (ho : (Token.symbol .openParen).Stands c m)
    (hc : (Token.symbol .closeParen).Stands m' d) : e.Read 9 c d := by
  obtain ⟨n, hn, hok⟩ := h
  have hhead : (skip c.rest).head? = some '(' := ho.lexes.head? trivial
  have hgroup := ho.locates_symbol.seq (hn.seq hc.locates_symbol)
  have hbody : (Rule.body .primaryExpression).Locates c [n] d :=
    .alt_right (Rule.fails_of_rejects hhead (by decide))
      (.alt_right (Rule.fails_of_rejects hhead (by decide))
        (.alt_right (Rule.fails_of_rejects hhead (by decide)) hgroup))
  exact ⟨n, hbody.silent rfl, hok⟩

/-! ## Lists -/

/-- A list with nothing in it. -/
theorem Grammar.locates_list_nil {item : Pattern} (ho : (Token.symbol .openParen).Stands c m)
    (hf : item.Fails m.rest) (hc : (Token.symbol .closeParen).Stands m d) :
    (parenthesized item).Locates c [] d :=
  ho.locates_symbol.seq ((Locates.optional_none hf.seq_left).seq
    (hc.congr m.skip_skip.symm).locates_symbol)

theorem Grammar.locates_list_cons {item : Pattern} {m₁ : Place}
    (ho : (Token.symbol .openParen).Stands c m) (hitem : item.Locates m ns m₁)
    (hmore : (phrase [text [',']] item).More m₁ ms m')
    (hc : (Token.symbol .closeParen).Stands m' d) :
    (parenthesized item).Locates c (ns ++ ms) d := by
  obtain ⟨m₂, hmany, hm₂⟩ := hmore.many
  have hitems := (Locates.optional_some (hitem.seq hmany)).seq
    (hc.congr hm₂.symm).locates_symbol
  rw [List.append_nil] at hitems
  exact ho.locates_symbol.seq hitems

/-- A list ends where a parenthesis closes. -/
theorem Grammar.more_nil_of_close {item : Pattern} (hc : (Token.symbol .closeParen).Stands c d) :
    (phrase [text [',']] item).More c [] c := by
  have hhead : (skip c.rest).head? = some ')' := hc.lexes.head? trivial
  refine .nil (Fails.seq_left (fails_text_of_head ?_))
  rw [hhead]
  simp

theorem Ident.StandsMore.more {xs : List Ident} (h : Ident.StandsMore xs c m)
    (hc : (Token.symbol .closeParen).Stands m d) :
    (phrase [text [',']] (rule .identifier)).More c (xs.map Ident.node) m := by
  induction h with
  | nil => exact more_nil_of_close hc
  | cons hcomma hx _ ih => exact .cons (hcomma.locates_symbol.seq hx.locates) (ih hc)

theorem Ident.StandsAll.locates {xs : List Ident} (h : Ident.StandsAll xs m m')
    (ho : (Token.symbol .openParen).Stands c m) (hc : (Token.symbol .closeParen).Stands m' d) :
    ∃ chars, (rule .formalParameters).Locates c
      [⟨.formalParameters, c.upTo d, chars, xs.map Ident.node⟩] d := by
  refine Locates.rule rfl ?_
  cases h with
  | nil =>
    have hhead : (skip m.rest).head? = some ')' := hc.lexes.head? trivial
    exact locates_list_nil ho (Rule.fails_of_rejects hhead (by decide)) hc
  | cons hx hxs => exact locates_list_cons ho hx.locates (hxs.more hc) hc

theorem Ident.map_ofNode_node (xs : List Ident) : (xs.map Ident.node).map Ident.ofNode = xs := by
  rw [List.map_map]
  exact List.map_id'' (fun x => x.ofNode_node) xs

/-! ## The kinds of statements -/

/-- The statement is read. -/
def Stmt.Read (s : Stmt) (c d : Place) : Prop :=
  ∃ n, (rule .statement).Locates c [n] d ∧ Stmt.ofNode n = .ok s

/-- A statement that starts with a reserved word, by the parts of its rule. -/
theorem Stmt.read_word {w : List Char} {r : Rule} {s : Stmt} (hmem : (w, r) ∈ statementWords)
    (hkind : r.kind = .normal) (hw : (Token.word w).Stands c m) (hr : r.body.Locates c ns d)
    (hok : ∀ chars chars', Stmt.ofNode ⟨.statement, c.upTo d, chars,
      [⟨r, c.upTo d, chars', ns⟩]⟩ = .ok s) : s.Read c d := by
  obtain ⟨chars', hinner⟩ := hr.rule hkind
  have hword : word (skip c.rest) = w := ((lexes_word (valid_statementWord hmem).2).1 hw.lexes).1
  have hbody : (Rule.body .statement).Locates c [⟨r, c.upTo d, chars', ns⟩] d := by
    have hnodup : (statementWords.map Prod.fst).Nodup := by decide
    obtain ⟨before, after, heq⟩ := List.append_of_mem hmem
    rw [body_statement, heq, List.map_append, List.map_cons, List.append_assoc, List.cons_append]
    refine .choice (fun q hq => ?_) hinner
    obtain ⟨⟨w', r'⟩, hmem', rfl⟩ := List.mem_map.1 hq
    refine fails_statementWord (heq ▸ List.mem_append_left _ hmem') ?_
    intro hword'
    -- no two statements start with one word
    rw [heq, List.map_append, List.map_cons, List.nodup_append] at hnodup
    exact hnodup.2.2 w' (List.mem_map_of_mem hmem') w (List.mem_cons_self ..)
      (hword'.symm.trans hword)
  obtain ⟨chars, hstmt⟩ := Locates.rule (r := .statement) rfl hbody
  exact ⟨_, hstmt, hok chars chars'⟩

theorem Expr.Read.print (h : e.Read 0 m m') (hprint : Token.kwPrint.Stands c m)
    (hsemi : (Token.symbol .semicolon).Stands m' d) : (Stmt.print (c.upTo d) e).Read c d := by
  obtain ⟨n, hn, hok⟩ := h
  have hbody : (Rule.body .printStatement).Locates c [n] d :=
    hprint.locates_opener Rule.isWord_print (hn.seq hsemi.locates_symbol)
  refine Stmt.read_word (r := .printStatement) (by simp [statementWords]) rfl hprint hbody
    fun _ _ => ?_
  simp only [Stmt.ofNode, hok, bind, Except.bind]
  rfl

theorem Stmt.read_ret (hreturn : Token.kwReturn.Stands c m)
    (hsemi : (Token.symbol .semicolon).Stands m d) : (Stmt.ret (c.upTo d) none).Read c d := by
  have hhead : (skip m.rest).head? = some ';' := hsemi.lexes.head? trivial
  have hnone : (optional (rule .expression)).Locates m [] m.skip :=
    .optional_none (Rule.fails_of_rejects hhead (by decide))
  have hbody : (Rule.body .returnStatement).Locates c [] d :=
    hreturn.locates_opener Rule.isWord_return
      (hnone.seq (hsemi.congr m.skip_skip.symm).locates_symbol)
  exact Stmt.read_word (r := .returnStatement) (by simp [statementWords]) rfl hreturn hbody
    fun _ _ => rfl

theorem Expr.Read.ret (h : e.Read 0 m m') (hreturn : Token.kwReturn.Stands c m)
    (hsemi : (Token.symbol .semicolon).Stands m' d) : (Stmt.ret (c.upTo d) (some e)).Read c d := by
  obtain ⟨n, hn, hok⟩ := h
  have hbody : (Rule.body .returnStatement).Locates c [n] d :=
    hreturn.locates_opener Rule.isWord_return (hn.optional_some.seq hsemi.locates_symbol)
  refine Stmt.read_word (r := .returnStatement) (by simp [statementWords]) rfl hreturn hbody
    fun _ _ => ?_
  simp only [Stmt.ofNode, hok, bind, Except.bind]
  rfl

theorem Ident.Stands.bind {x : Ident} (h : x.Stands m m') (hlet : Token.kwLet.Stands c m)
    (hsemi : (Token.symbol .semicolon).Stands m' d) : (Stmt.bind (c.upTo d) x none).Read c d := by
  have hhead : (skip m'.rest).head? = some ';' := hsemi.lexes.head? trivial
  have hassign : (text ['=']).Fails m'.rest := fails_text_of_head (by rw [hhead]; simp)
  have hnone : (optional (phrase [text ['=']] (rule .expression))).Locates m' [] m'.skip :=
    .optional_none hassign.seq_left
  have hbody : (Rule.body .variableDeclaration).Locates c [x.node] d :=
    hlet.locates_opener Rule.isWord_let (h.locates.seq
      (hnone.seq (hsemi.congr m'.skip_skip.symm).locates_symbol))
  refine Stmt.read_word (r := .variableDeclaration) (by simp [statementWords]) rfl hlet hbody
    fun _ _ => ?_
  exact congrArg (fun y => Except.ok (Stmt.bind (c.upTo d) y none)) x.ofNode_node

theorem Expr.Read.bind {x : Ident} {m₁ m₂ : Place} (h : e.Read 0 m₁ m₂)
    (hlet : Token.kwLet.Stands c m) (hx : x.Stands m m')
    (hassign : (Token.symbol .assign).Stands m' m₁)
    (hsemi : (Token.symbol .semicolon).Stands m₂ d) :
    (Stmt.bind (c.upTo d) x (some e)).Read c d := by
  obtain ⟨n, hn, hok⟩ := h
  have hinit : (optional (phrase [text ['=']] (rule .expression))).Locates m' [n] m₂ :=
    .optional_some (hassign.locates_symbol.seq hn)
  have hbody : (Rule.body .variableDeclaration).Locates c [x.node, n] d :=
    hlet.locates_opener Rule.isWord_let (hx.locates.seq (hinit.seq hsemi.locates_symbol))
  refine Stmt.read_word (r := .variableDeclaration) (by simp [statementWords]) rfl hlet hbody
    fun _ _ => ?_
  simp only [Stmt.ofNode, hok, Bind.bind, Except.bind, x.ofNode_node]
  rfl

theorem Expr.Read.cond {a : Stmt} {m₁ m₂ m₃ : Place} (h : e.Read 0 m₁ m₂)
    (hif : Token.kwIf.Stands c m) (ho : (Token.symbol .openParen).Stands m m₁)
    (hc : (Token.symbol .closeParen).Stands m₂ m₃) (ha : a.Read m₃ d)
    (helse : word (skip d.rest) ≠ ['e', 'l', 's', 'e']) :
    (Stmt.cond (c.upTo d.skip) e a none).Read c d.skip := by
  obtain ⟨n, hn, hok⟩ := h
  obtain ⟨n', hn', hok'⟩ := ha
  have hnone : (optional (phrase (opener .kwElse ['e', 'l', 's', 'e'])
      (rule .statement))).Locates d [] d.skip :=
    .optional_none (Rule.isWord_else.fails.2 helse).ahead.seq_left
  have hbody : (Rule.body .ifStatement).Locates c [n, n'] d.skip :=
    hif.locates_opener Rule.isWord_if (ho.locates_symbol.seq (hn.seq (hc.locates_symbol.seq
      (hn'.seq hnone))))
  refine Stmt.read_word (r := .ifStatement) (by simp [statementWords]) rfl hif hbody
    fun _ _ => ?_
  simp only [Stmt.ofNode, hok, hok']
  rfl

theorem Expr.Read.condElse {a b : Stmt} {m₁ m₂ m₃ m₄ m₅ : Place} (h : e.Read 0 m₁ m₂)
    (hif : Token.kwIf.Stands c m) (ho : (Token.symbol .openParen).Stands m m₁)
    (hc : (Token.symbol .closeParen).Stands m₂ m₃) (ha : a.Read m₃ m₄)
    (helse : Token.kwElse.Stands m₄ m₅) (hb : b.Read m₅ d) :
    (Stmt.cond (c.upTo d) e a (some b)).Read c d := by
  obtain ⟨n, hn, hok⟩ := h
  obtain ⟨n', hn', hok'⟩ := ha
  obtain ⟨n'', hn'', hok''⟩ := hb
  have hother : (optional (phrase (opener .kwElse ['e', 'l', 's', 'e'])
      (rule .statement))).Locates m₄ [n''] d := by
    rw [← List.append_nil (opener _ _)]
    exact .optional_some (helse.locates_opener Rule.isWord_else hn'')
  have hbody : (Rule.body .ifStatement).Locates c [n, n', n''] d :=
    hif.locates_opener Rule.isWord_if (ho.locates_symbol.seq (hn.seq (hc.locates_symbol.seq
      (hn'.seq hother))))
  refine Stmt.read_word (r := .ifStatement) (by simp [statementWords]) rfl hif hbody
    fun _ _ => ?_
  simp only [Stmt.ofNode, hok, hok', hok'']
  rfl

theorem Expr.Read.statement (h : e.Read 0 c m) (hspelled : e.Spelled 0 ts)
    (hlex : Lexes ts c.rest m.rest) (hsemi : (Token.symbol .semicolon).Stands m d) :
    (Stmt.expr (c.upTo d) e).Read c d := by
  obtain ⟨n, hn, hok⟩ := h
  have hinner : (Rule.body .expressionStatement).Locates c [n] d := hn.seq hsemi.locates_symbol
  obtain ⟨chars, hinner⟩ := Locates.rule (r := .expressionStatement) rfl hinner
  have hbody : (Rule.body .statement).Locates c
      [⟨.expressionStatement, c.upTo d, chars, [n]⟩] d := by
    rw [body_statement]
    exact .choice_last (hspelled.fails_statement hlex) hinner
  obtain ⟨chars', hstmt⟩ := Locates.rule (r := .statement) rfl hbody
  refine ⟨_, hstmt, ?_⟩
  simp only [Stmt.ofNode, hok]
  rfl

theorem Stmt.read_block {body : List Stmt} (hbody : braced.Locates c ns d)
    (hhead : (Token.symbol .openBrace).Stands c m) (hok : Stmt.allOfNodes ns = .ok body) :
    (Stmt.block (c.upTo d) body).Read c d := by
  have hhead : (skip c.rest).head? = some '\x7b' := hhead.lexes.head? trivial
  have hrejects : ∀ p ∈ statementWords, p.2.rejects Rule.topRank (some '\x7b') = true := by decide
  obtain ⟨chars, hinner⟩ := Locates.rule (r := .blockStatement) rfl hbody
  have hstmt : (Rule.body .statement).Locates c [⟨.blockStatement, c.upTo d, chars, ns⟩] d := by
    rw [body_statement]
    exact .choice (List.forall_mem_map.2 fun p hp => Rule.fails_of_rejects hhead (hrejects p hp))
      hinner
  obtain ⟨chars', hstmt⟩ := Locates.rule (r := .statement) rfl hstmt
  refine ⟨_, hstmt, ?_⟩
  simp only [Stmt.ofNode, hok]
  rfl

/-! ## Functions -/

/-- The parameters and the body of a function are read. -/
def FunctionDef.Read (f : FunctionDef) (c d : Place) : Prop :=
  ∃ chars chars' span ns m, (rule .formalParameters).Locates c
      [⟨.formalParameters, span, chars, f.params.map Ident.node⟩] m ∧
    (rule .functionBody).Locates m [⟨.functionBody, f.bodySpan, chars', ns⟩] d ∧
    Stmt.allOfNodes ns = .ok f.body

theorem FunctionDef.Read.expression {f : FunctionDef} (h : f.Read m d) (hid : f.id = none)
    (hspan : f.span = c.upTo d) (hfn : Token.kwFn.Stands c m) : (Expr.function f).Read 9 c d := by
  obtain ⟨chars, chars', span, ns, m₁, hparams, hbody, hok⟩ := h
  have hinner : (Rule.body .functionExpression).Locates c _ d :=
    hfn.locates_opener Rule.isWord_fn (hparams.seq hbody)
  obtain ⟨text, hnode⟩ := Locates.rule (r := .functionExpression) rfl hinner
  have hprimary : (Rule.body .primaryExpression).Locates c _ d := .alt_left hnode
  refine ⟨_, hprimary.silent rfl, ?_⟩
  obtain ⟨span, id, params, bodySpan, body⟩ := f
  obtain rfl : id = none := hid
  obtain rfl : span = c.upTo d := hspan
  simp only [List.singleton_append, Expr.ofNode, FunctionDef.ofNodes_pair, FunctionDef.params,
    Ident.map_ofNode_node, show Stmt.allOfNodes ns = .ok body from hok, bind, Except.bind]
  rfl

theorem FunctionDef.Read.declaration {f : FunctionDef} {x : Ident} (h : f.Read m' d)
    (hid : f.id = some x) (hspan : f.span = c.upTo d) (hfn : Token.kwFn.Stands c m)
    (hx : x.Stands m m') : (Stmt.function f).Read c d := by
  obtain ⟨chars, chars', span, ns, m₁, hparams, hbody, hok⟩ := h
  have hinner : (Rule.body .functionDeclaration).Locates c _ d :=
    hfn.locates_opener Rule.isWord_fn (hx.locates.seq (hparams.seq hbody))
  refine Stmt.read_word (r := .functionDeclaration) (by simp [statementWords]) rfl hfn hinner
    fun _ _ => ?_
  obtain ⟨span, id, params, bodySpan, body⟩ := f
  obtain rfl : id = some x := hid
  obtain rfl : span = c.upTo d := hspan
  have hname : x.node.rule = .identifier := rfl
  simp only [List.singleton_append, Stmt.ofNode, FunctionDef.ofNodes_identifier hname,
    x.ofNode_node, FunctionDef.ofNodes_pair, FunctionDef.params, Ident.map_ofNode_node,
    show Stmt.allOfNodes ns = .ok body from hok, bind, Except.bind]
  rfl

/-! ## The induction -/

theorem Expr.StandsMore.stops {es : List Expr} (h : Expr.StandsMore es c m)
    (hc : (Token.symbol .closeParen).Stands m d) : Stops k c.rest := by
  cases h with
  | nil => exact stops_of_symbol (by simp) hc.lexes
  | cons hcomma => exact stops_of_symbol (by simp) hcomma.lexes

/-- What follows a statement in a block is no alternative. -/
theorem Stmt.StandsAll.word_ne {ss : List Stmt} (h : Stmt.StandsAll ss c d)
    (hend : EndsBlock d.rest) : word (skip c.rest) ≠ ['e', 'l', 's', 'e'] := by
  cases h with
  | nil => exact hend.word_ne Rule.isWord_else.valid
  | cons hs hss =>
    obtain ⟨ts, hspelled, hts⟩ := hs.spelled
    have hvalid := hspelled.valid
    obtain ⟨t, us, rfl, hne⟩ := hspelled.front
    exact fun heq => hne
      ((hts.lexes.word_eq_iff (hvalid t (by simp)) Rule.isWord_else.valid).1 heq)

mutual

/-- An expression is read where it stands, if what follows does not go on with it. -/
theorem Expr.Stands.open : ∀ {k : Nat} {e : Expr} {c d : Place}, e.Stands k c d → k ≤ 9 →
    (k ≤ 8 → Stops (k + 1) d.rest) → e.Open k c d
  | _, _, _, _, .literal hl ht, _, _ => hl.read ht
  | _, _, _, _, .ident hx, _, _ => hx.read
  | _, _, _, _, .function hid hspan hfn hf, _, _ => hf.read.expression hid hspan hfn
  | _, _, _, _, .group ho he hc, _, _ =>
    Expr.Read.group (he.open (Nat.zero_le 9) fun _ => stops_of_symbol (by simp) hc.lexes) ho hc
  | _, _, _, _, .call hf ho hargs hc, _, _ => by
    have hcallee := hf.open (by omega) fun _ => stops_of_lexes ho.lexes trivial (by decide)
    obtain ⟨chars, ns, hlocates, hok⟩ := hargs.locates ho hc
    exact Expr.Called.call hcallee hlocates hok
  | _, _, _, _, .unary hop he, _, hs =>
    Expr.Read.unary (he.open (by omega) fun _ => hs (by omega)) hop
  | _, _, _, _, .joined (o := o) hl ho hr, _, hs => by
    have hone := o.one_le_strength
    have hsix := o.strength_le_six
    have hstops := hs (by omega)
    have hleft := hl.open (by omega) fun _ => o.stops ho.lexes
    have hright := hr.open (by omega) fun _ => hstops.mono (by omega)
    rw [Expr.open_chained hone hsix] at hleft ⊢
    exact hleft.join ho (hright.read (by omega) fun _ => hstops)
  | _, _, _, _, .assign hx ha he, _, hs =>
    Expr.Read.assign (he.open (Nat.zero_le 9) fun _ => hs (by omega)) hx ha
  | _, _, _, _, .first (d := d) hk hzero hseven he, _, hs => by
    have hstops := hs hk
    rw [Place.rest_skip] at hstops
    have hstops := hstops.skip
    exact (he.open (by omega) fun _ => hstops.mono (by omega)).first hk hzero hseven fun _ => hstops
  | _, _, _, _, .plain hk' he, _, hs => by
    have hstops := hs (by omega)
    obtain ⟨ts, hspelled, hts⟩ := he.spelled
    exact (he.open (by omega) fun _ => hstops.mono (by omega)).plain hk' hstops hspelled hts.lexes

theorem Expr.StandsMore.more : ∀ {es : List Expr} {c m d : Place}, Expr.StandsMore es c m →
    (Token.symbol .closeParen).Stands m d →
    ∃ ns, (phrase [text [',']] (rule .expression)).More c ns m ∧ Expr.allOfNodes ns = .ok es
  | _, _, _, _, .nil, hc => ⟨[], more_nil_of_close hc, rfl⟩
  | _, _, _, _, .cons hcomma he hes, hc => by
    obtain ⟨n, hn, hok⟩ := he.open (Nat.zero_le 9) fun _ => hes.stops hc
    obtain ⟨ns, hmore, hoks⟩ := hes.more hc
    refine ⟨n :: ns, .cons (hcomma.locates_symbol.seq hn) hmore, ?_⟩
    simp only [Expr.allOfNodes, hok, hoks, bind, Except.bind]
    rfl

theorem Expr.StandsAll.locates : ∀ {es : List Expr} {c m m' d : Place}, Expr.StandsAll es m m' →
    (Token.symbol .openParen).Stands c m → (Token.symbol .closeParen).Stands m' d →
    ∃ chars ns, (rule .arguments).Locates c [⟨.arguments, c.upTo d, chars, ns⟩] d ∧
      Expr.allOfNodes ns = .ok es
  | _, _, m, _, _, .nil, ho, hc => by
    have hhead : (skip m.rest).head? = some ')' := hc.lexes.head? trivial
    obtain ⟨chars, hlocates⟩ := Locates.rule (r := .arguments) rfl
      (locates_list_nil ho (Rule.fails_of_rejects hhead (by decide)) hc)
    exact ⟨chars, [], hlocates, rfl⟩
  | _, _, _, _, _, .cons he hes, ho, hc => by
    obtain ⟨n, hn, hok⟩ := he.open (Nat.zero_le 9) fun _ => hes.stops hc
    obtain ⟨ns, hmore, hoks⟩ := hes.more hc
    obtain ⟨chars, hlocates⟩ := Locates.rule (r := .arguments) rfl
      (locates_list_cons ho hn hmore hc)
    refine ⟨chars, n :: ns, hlocates, ?_⟩
    simp only [Expr.allOfNodes, hok, hoks, bind, Except.bind]
    rfl

/-- A statement is read where it stands, if what follows is no alternative for it. -/
theorem Stmt.Stands.read : ∀ {s : Stmt} {c d : Place}, s.Stands c d →
    (s.isOpen = true → word (skip d.rest) ≠ ['e', 'l', 's', 'e']) → s.Read c d
  | _, _, _, .expr he hsemi, _ => by
    obtain ⟨ts, hspelled, hts⟩ := he.spelled
    have hread : Expr.Read 0 _ _ _ :=
      he.open (Nat.zero_le 9) fun _ => stops_of_symbol (by simp) hsemi.lexes
    exact hread.statement hspelled hts.lexes hsemi
  | _, _, _, .print hkw he hsemi, _ =>
    Expr.Read.print (he.open (Nat.zero_le 9) fun _ => stops_of_symbol (by simp) hsemi.lexes) hkw
      hsemi
  | _, _, _, .ret hkw hsemi, _ => Stmt.read_ret hkw hsemi
  | _, _, _, .retValue hkw he hsemi, _ =>
    Expr.Read.ret (he.open (Nat.zero_le 9) fun _ => stops_of_symbol (by simp) hsemi.lexes) hkw
      hsemi
  | _, _, _, .block hbody, _ => by
    obtain ⟨ns, m, hlocates, ho, hok⟩ := hbody.locates
    exact Stmt.read_block hlocates ho hok
  | _, _, _, .bind hkw hx hsemi, _ => hx.bind hkw hsemi
  | _, _, _, .bindValue hkw hx ha he hsemi, _ =>
    Expr.Read.bind (he.open (Nat.zero_le 9) fun _ => stops_of_symbol (by simp) hsemi.lexes) hkw hx
      ha hsemi
  | _, _, _, .function hid hspan hkw hx hf, _ => hf.read.declaration hid hspan hkw hx
  | _, _, _, .cond (d := d) hkw ho he hc ha, helse => by
    have helse' : word (skip d.rest) ≠ ['e', 'l', 's', 'e'] := by simpa using helse rfl
    exact Expr.Read.cond (he.open (Nat.zero_le 9) fun _ => stops_of_symbol (by simp) hc.lexes) hkw
      ho hc (ha.read fun _ => helse') helse'
  | _, _, _, .condElse hkw ho he hc ha hclosed hkw' hb, helse =>
    Expr.Read.condElse (he.open (Nat.zero_le 9) fun _ => stops_of_symbol (by simp) hc.lexes) hkw
      ho hc (ha.read fun hopen => absurd (hclosed.symm.trans hopen) (by simp)) hkw'
      (hb.read helse)

theorem Stmt.StandsAll.more : ∀ {ss : List Stmt} {c d : Place}, Stmt.StandsAll ss c d →
    EndsBlock d.rest → ∃ ns, (rule .statement).More c ns d ∧ Stmt.allOfNodes ns = .ok ss
  | _, _, _, .nil, hend => ⟨[], .nil hend.fails_statement, rfl⟩
  | _, _, _, .cons hs hss, hend => by
    obtain ⟨n, hn, hok⟩ := hs.read fun _ => hss.word_ne hend
    obtain ⟨ns, hmore, hoks⟩ := hss.more hend
    refine ⟨n :: ns, .cons hn hmore, ?_⟩
    obtain ⟨chars, children, rfl⟩ := hn.node (by decide)
    rw [Stmt.allOfNodes_cons rfl, hok, hoks]
    rfl

/-- A block is read where it stands. -/
theorem Stmt.Braced.locates : ∀ {body : List Stmt} {c d : Place}, Stmt.Braced body c d →
    ∃ ns m, braced.Locates c ns d ∧ (Token.symbol .openBrace).Stands c m ∧
      Stmt.allOfNodes ns = .ok body
  | _, _, _, .mk ho hbody hc => by
    obtain ⟨ns, hmore, hok⟩ := hbody.more (endsBlock_of_lexes hc.lexes)
    obtain ⟨m', hmany, hm'⟩ := hmore.many
    have hitems := hmany.seq (hc.congr hm'.symm).locates_symbol
    rw [List.append_nil] at hitems
    exact ⟨ns, _, ho.locates_symbol.seq hitems, ho, hok⟩

theorem FunctionDef.Stands.read : ∀ {f : FunctionDef} {c d : Place}, f.Stands c d → f.Read c d
  | _, _, _, .mk ho hparams hc hbody => by
    obtain ⟨chars, hparams⟩ := hparams.locates ho hc
    obtain ⟨ns, m, hlocates, -, hok⟩ := hbody.locates
    obtain ⟨chars', hbody⟩ := Locates.rule (r := .functionBody) rfl hlocates
    exact ⟨chars, chars', _, ns, _, hparams, hbody, hok⟩

end

/-! ## Scripts -/

theorem Grammar.locates_endOfInput (h : skip c.rest = []) :
    ∃ chars, (rule .endOfInput).Locates c [⟨.endOfInput, c.upTo c.skip, chars, []⟩] c.skip := by
  have hempty : c.skip.rest.isEmpty = true := by rw [Place.rest_skip, h]; rfl
  have hfinish : finish.Locates c [] c.skip := by
    intro k hr
    have hfinds := Finds.finish c.skip.rest
    rw [if_pos hempty] at hfinds
    exact ⟨_, hfinds, Tree.spans_nil _⟩
  exact Locates.rule (r := .endOfInput) rfl hfinish

/-- The node of a script covers the layout that the script starts with. -/
theorem Grammar.run_script
    (h : (phrase [many .layout (rule .statement)] (rule .endOfInput)).Locates c ns d) :
    ∃ chars m, Rule.script.run c.rest = some m ∧
      Tree.Spans m.parts c.offset [⟨.script, ⟨c.offset, d.offset⟩, chars, ns⟩] d.offset := by
  obtain ⟨ts, hfinds, hspans⟩ := h _ (Rule.ranked_body .script).2
  obtain ⟨chars, hnode⟩ := ((Tree.spans_gap _ _).append hspans).node .script
  have hbody : (Rule.body .script).Finds c.rest _ := .seq (.empty c.rest) hfinds
  obtain ⟨m, hrun, hparts, -⟩ := Rule.run_of_finds (.rule hbody)
  refine ⟨chars, m, hrun, ?_⟩
  rw [hparts]
  exact hnode

theorem Stmt.StandsAll.offset_eq {body : List Stmt} (h : Stmt.StandsAll body ⟨0, cs⟩ d)
    (hd : skip d.rest = []) : d.skip.offset = utf8Size cs := by
  obtain ⟨ts, -, hts⟩ := h.spelled
  obtain ⟨u, hu, hsize⟩ := hts.skip.le
  rw [Place.rest_skip, hd, List.append_nil] at hu
  rw [hsize, ← hu, Nat.zero_add]

/-- The statements that stand in a script, up to its end, are its program. -/
theorem Program.read_of_stands {s : String} {body : List Stmt}
    (h : Stmt.StandsAll body ⟨0, s.toList⟩ d) (hd : skip d.rest = []) :
    Program.read s = .ok ⟨⟨0, utf8Size s.toList⟩, body⟩ := by
  have hend : EndsBlock d.rest := by simp [EndsBlock, hd]
  obtain ⟨ns, hmore, hok⟩ := h.more hend
  obtain ⟨d', hmany, hd'⟩ := hmore.many
  have hrest : skip d'.rest = [] := by rw [← Place.rest_skip, hd', Place.rest_skip, hd]
  obtain ⟨chars, hfinish⟩ := locates_endOfInput hrest
  obtain ⟨chars', m, hm, hnode, -⟩ := run_script (hmany.seq hfinish)
  have hoffset : d'.skip.offset = utf8Size s.toList := by rw [hd', h.offset_eq hd]
  have hmatch : Program.matchScript s.toList = .ok m.parts := by
    rw [Program.matchScript, hm]
  have hnodes : Tree.locate m.parts = _ := hnode
  unfold Program.read
  rw [hmatch]
  show Program.ofNodes (Tree.locate m.parts) = _
  rw [hnodes, Program.ofNodes, Stmt.allOfNodes_finish _ rfl, hok, hoffset]
  rfl

/-- A text whose tokens denote a program is read as the program. -/
theorem Program.read_of_lexes {p : Program} {s : String} (h : Stmt.SpelledAll p.body ts)
    (hlex : Lexes ts s.toList []) : ∃ q, Program.read s = .ok q ∧ q.erase = p.erase := by
  obtain ⟨body, d, hbody, hstands, hd⟩ := h.stands hlex (c := ⟨0, s.toList⟩) rfl
  refine ⟨_, Program.read_of_stands hstands (hd.trans Layout.skip_nil), ?_⟩
  rw [Program.erase, Program.erase, hbody]

end Scoped
