import Mathlib.Data.Nat.Digits.Defs
import Scoped.Proofs.Shapes

/-!
# Integers that are too large

Reading a script that the grammar accepts can fail in one way only : a numeral without a point
denotes a number above the greatest integer. Nodes of a match are shaped, and from a shaped tree
a program is read, unless such a numeral is in it; then the first one is reported, at its
span (`Node.Shaped.readable`). The induction is over the tree, with one case for each rule.

`Program.read_fails_at_first_oversized` says it of scripts, where numerals are leaves of the match
and their places are counted in the text before them.
-/

namespace Scoped

open Grammar Grammar.Pattern
open Grammar.Tree (locateFrom yieldAll textAll leavesAll)

variable {α β : Type} {n : Nat} {m : Node} {r : Rule}

/-! ## Numerals -/

/-- The text of an integer above the greatest one of 64 bits. -/
def Literal.Oversized (t : List Char) : Prop :=
  '.' ∉ t ∧ 2 ^ 63 - 1 < Nat.ofDigits 10 (t.reverse.map fun c => c.toNat - '0'.toNat)

instance : DecidablePred Literal.Oversized := fun _ => inferInstanceAs (Decidable (_ ∧ _))

theorem Literal.digitsValue_eq_ofDigits (t : List Char) :
    Literal.digitsValue t = Nat.ofDigits 10 (t.reverse.map fun c => c.toNat - '0'.toNat) := by
  rw [Nat.ofDigits_eq_foldr, List.foldr_map, List.foldr_reverse, Literal.digitsValue]
  simp only [Literal.digitValue, Nat.cast_id, Nat.add_comm]

/-- A numeral that denotes nothing is too large. -/
theorem Literal.ofNumeral?_eq_none_iff {t : Token} (hn : t.IsNumeral) (ht : t.Valid) :
    Literal.ofNumeral? t.text = none ↔ Literal.Oversized t.text := by
  cases t with
  | integer ds =>
    have hpoint : '.' ∉ ds := fun h => absurd (ht.2 _ h) (by decide)
    have hmin : Int64.minValue.toInt ≤ (Literal.digitsValue ds : Int) := by
      have : Int64.minValue.toInt = -2 ^ 63 := by decide
      omega
    have hmax : Int64.maxValue.toInt = 2 ^ 63 - 1 := by decide
    rw [Token.text, Literal.ofNumeral?_integer ht, Option.map_eq_none_iff, Number.ofInt?, hmax]
    simp only [Literal.Oversized, hpoint, not_false_eq_true, true_and, hmin,
      ← Literal.digitsValue_eq_ofDigits]
    split
    · simp only [reduceCtorEq, false_iff]
      omega
    · simp only [true_iff]
      omega
  | decimal ds fs =>
    rw [Token.text, Literal.ofNumeral?_decimal ht]
    simp [Literal.Oversized]
  | word | quoted | symbol => exact hn.elim

mutual

/-- The spans of the integers that are too large, in order. -/
def Grammar.Node.faults : Node → List Span
  | ⟨r, span, text, children⟩ =>
    if r = .numericLiteral then if Literal.Oversized text then [span] else []
    else Node.faultsAll children

/-- The spans of the integers that are too large, in order. -/
def Grammar.Node.faultsAll : List Node → List Span
  | [] => []
  | n :: ns => n.faults ++ Node.faultsAll ns

end

namespace Grammar.Node

theorem faults_node (hr : r ≠ .numericLiteral) (span : Span) (text : List Char)
    (children : List Node) : (⟨r, span, text, children⟩ : Node).faults = faultsAll children := by
  rw [faults, if_neg hr]

@[simp]
theorem faultsAll_nil : faultsAll [] = [] := by rw [faultsAll]

@[simp]
theorem faultsAll_cons (n : Node) (ns : List Node) :
    faultsAll (n :: ns) = n.faults ++ faultsAll ns := by rw [faultsAll]

theorem faultsAll_singleton (n : Node) : faultsAll [n] = n.faults := by
  rw [faultsAll_cons, faultsAll_nil, List.append_nil]

@[simp]
theorem faultsAll_append (ns ms : List Node) :
    faultsAll (ns ++ ms) = faultsAll ns ++ faultsAll ms := by
  induction ns with
  | nil => simp
  | cons n ns ih => simp [ih]

theorem faultsAll_eq_nil {ns : List Node} (h : ∀ n ∈ ns, n.faults = []) : faultsAll ns = [] := by
  induction ns with
  | nil => simp
  | cons n ns ih =>
    obtain ⟨hn, hns⟩ := List.forall_mem_cons.1 h
    simp [hn, ih hns]

end Grammar.Node

/-! ## Answers -/

/-- There is a result if there are no faults, and else the first one is reported. -/
def Answers (x : Except Error α) : List Span → Prop
  | [] => ∃ a, x = .ok a
  | span :: _ => x = .error (ScriptFault.oversized.at span)

namespace Answers

theorem ok (a : α) : Answers (.ok a) [] := ⟨a, rfl⟩

/-- The faults of what is read first are reported first. -/
theorem bind {x : Except Error α} {f : α → Except Error β} {l l' : List Span} (hx : Answers x l)
    (hf : ∀ a, Answers (f a) l') : Answers (x >>= f) (l ++ l') := by
  cases l with
  | nil =>
    obtain ⟨a, rfl⟩ := hx
    exact hf a
  | cons span l =>
    obtain rfl : x = _ := hx
    rfl

theorem bind_ok {x : Except Error α} {f : α → Except Error β} {l : List Span} (hx : Answers x l)
    (hf : ∀ a, ∃ b, f a = .ok b) : Answers (x >>= f) l := by
  have h : Answers (x >>= f) (l ++ []) := hx.bind hf
  rwa [List.append_nil] at h

/-- No other fault is reported. -/
theorem ne_error {x : Except Error α} {l : List Span} (hx : Answers x l) {fault : ScriptFault}
    (hfault : fault ≠ .oversized) (span : Span) : x ≠ .error (fault.at span) := by
  intro heq
  cases l with
  | nil =>
    obtain ⟨a, ha⟩ := hx
    cases ha.symm.trans heq
  | cons first l =>
    have herror : x = .error (ScriptFault.oversized.at first) := hx
    cases herror.symm.trans heq
    exact hfault rfl

end Answers

/-! ## What has no numerals -/

/-- The rules of nodes without nodes below them, other than numerals. -/
def Grammar.Rule.plain : List Rule :=
  [.identifier, .stringCharacters, .nilLiteral, .booleanLiteral, .endOfInput, .orOperator,
    .andOperator, .equalityOperator, .relationalOperator, .additiveOperator,
    .multiplicativeOperator, .unaryOperator]

theorem Grammar.Rule.eq_nil_of_plain {rules : List Rule} (hr : r ∈ Rule.plain)
    (h : r.Admits rules) : rules = [] := by
  simp only [Rule.plain, List.mem_cons, List.not_mem_nil, or_false] at hr
  obtain rfl | rfl | rfl | rfl | rfl | rfl | rfl | rfl | rfl | rfl | rfl | rfl := hr <;> exact h

namespace Grammar.Node.Shaped

theorem faults_of_plain (h : m.Shaped) (hm : m.rule ∈ Rule.plain) : m.faults = [] := by
  obtain @⟨r, span, text, children, hadmits, -, -⟩ := h
  have hne : r ≠ .numericLiteral := by
    rintro rfl
    exact (by decide : Rule.numericLiteral ∉ Rule.plain) hm
  rw [faults_node hne, List.map_eq_nil_iff.1 (Rule.eq_nil_of_plain hm hadmits), faultsAll_nil]

theorem faults_of_parameters (h : m.Shaped) (hm : m.rule = .formalParameters) :
    m.faults = [] := by
  obtain @⟨r, span, text, children, hadmits, -, hchildren⟩ := h
  obtain rfl : r = .formalParameters := hm
  rw [faults_node (by decide)]
  refine faultsAll_eq_nil fun c hc => (hchildren c hc).faults_of_plain ?_
  rw [hadmits _ (List.mem_map_of_mem hc)]
  decide

end Grammar.Node.Shaped

/-! ## Literals and operators -/

theorem Grammar.Node.numeralFault_of_oversized {n : Node} (h : Literal.Oversized n.text) :
    n.numeralFault = ScriptFault.oversized.at n.span := by
  have hpoint : ¬n.text.contains '.' = true := by
    rw [List.contains_iff_mem]
    exact h.1
  rw [Node.numeralFault, if_neg hpoint]

theorem Literal.answers_ofNode (h : m.Shaped) (hm : m.rule ∈ Rule.literals) :
    Answers (Literal.ofNode m) m.faults := by
  obtain @⟨r, span, text, children, hadmits, hspells, hchildren⟩ := h
  simp only [Rule.literals, List.mem_cons, List.not_mem_nil, or_false] at hm
  obtain rfl | rfl | rfl | rfl := hm
  · rw [Node.faults_node (by decide), List.map_eq_nil_iff.1 hadmits]
    exact .ok _
  · rw [Node.faults_node (by decide), List.map_eq_nil_iff.1 hadmits]
    exact .ok _
  · obtain ⟨t, hn, ht, rfl⟩ := hspells
    rw [Node.faults, if_pos rfl, Literal.ofNode]
    by_cases hsize : Literal.Oversized t.text
    · simp only [if_pos hsize, (ofNumeral?_eq_none_iff hn ht).2 hsize,
        Node.numeralFault_of_oversized (n := ⟨_, _, t.text, _⟩) hsize]
      rfl
    · obtain ⟨l, hl⟩ := Option.ne_none_iff_exists'.1 (mt (ofNumeral?_eq_none_iff hn ht).1 hsize)
      simp only [if_neg hsize, hl]
      exact .ok l
  · obtain ⟨c, rest, rfl, hc, hrest⟩ := List.map_eq_cons_iff.1 hadmits
    obtain rfl := List.map_eq_nil_iff.1 hrest
    have hplain : c.faults = [] := (hchildren c (by simp)).faults_of_plain (by rw [hc]; decide)
    rw [Node.faults_node (by decide), Node.faultsAll_cons, hplain]
    exact .ok _

theorem Grammar.Rule.operator_mem_plain {k : Nat} (hk : 1 ≤ k) (hk' : k ≤ 6) :
    Rule.operator k ∈ Rule.plain := by
  interval_cases k <;> decide

/-- The node of an operator holds one that its chain knows. -/
theorem Connective.exists_reader {k : Nat} (hk : 1 ≤ k) (hk' : k ≤ 6) (h : m.Shaped)
    (hm : m.rule = .operator k) : ∃ c, Connective.reader k m = .ok c := by
  obtain @⟨r, span, text, children, -, hspells, -⟩ := h
  obtain rfl : r = .operator k := hm
  rcases (by omega : k = 1 ∨ k = 2 ∨ 3 ≤ k) with rfl | rfl | hk
  · exact ⟨_, rfl⟩
  · exact ⟨_, rfl⟩
  obtain ⟨o, ho⟩ : ∃ o, BinaryOp.ofSymbol? (String.ofList text) = some o := by
    interval_cases k <;> simp only [Rule.operator, Rule.Spells, List.mem_cons, List.not_mem_nil,
      or_false] at hspells
    · obtain rfl | rfl := hspells <;> exact ⟨_, rfl⟩
    · obtain rfl | rfl | rfl | rfl := hspells <;> exact ⟨_, rfl⟩
    · obtain rfl | rfl := hspells <;> exact ⟨_, rfl⟩
    · obtain rfl | rfl | rfl := hspells <;> exact ⟨_, rfl⟩
  rw [Connective.reader, if_neg (by omega), Connective.ofBinaryNode, ho]
  exact ⟨_, rfl⟩

theorem UnaryOp.exists_ofNode (h : m.Shaped) (hm : m.rule = .unaryOperator) :
    ∃ o, UnaryOp.ofNode m = .ok o := by
  obtain @⟨r, span, text, children, -, hspells, -⟩ := h
  obtain rfl : r = .unaryOperator := hm
  simp only [Rule.Spells, List.mem_cons, List.not_mem_nil, or_false] at hspells
  obtain rfl | rfl := hspells <;> exact ⟨_, rfl⟩

/-! ## Trees -/

/-- The rules of nodes that stand for an expression. -/
def Grammar.Rule.operands : List Rule :=
  [.assignmentExpression, .logicalOrExpression, .logicalAndExpression, .equalityExpression,
    .relationalExpression, .additiveExpression, .multiplicativeExpression, .unaryExpression,
    .callExpression, .functionExpression, .identifier, .nilLiteral, .booleanLiteral,
    .numericLiteral, .stringLiteral]

/-- What is read off a node, or off the nodes below it, answers to its faults. -/
structure Grammar.Node.Readable (m : Node) : Prop where
  shaped : m.Shaped
  expr : m.rule ∈ Rule.operands → Answers (Expr.ofNode m) m.faults
  arguments : m.rule = .arguments → Answers (Expr.allOfNodes m.children) m.faults
  body : m.rule = .functionBody → Answers (Stmt.allOfNodes m.children) m.faults
  /-- The node below that of a statement. -/
  part : m.rule ∈ Rule.statements → ∀ span text,
    Answers (Stmt.ofNode ⟨.statement, span, text, [m]⟩) m.faults
  stmt : m.rule = .statement → Answers (Stmt.ofNode m) m.faults

theorem Grammar.Rule.operands_of_expressions (h : r ∈ Rule.expressions) : r ∈ Rule.operands := by
  simp only [expressions, List.mem_cons, List.not_mem_nil, or_false] at h
  obtain rfl | rfl := h <;> decide

theorem Grammar.Rule.operands_of_primaries (h : r ∈ Rule.primaries) : r ∈ Rule.operands := by
  simp only [primaries, literals, expressions, List.cons_append, List.nil_append, List.mem_cons,
    List.not_mem_nil, or_false] at h
  obtain rfl | rfl | rfl | rfl | rfl | rfl | rfl | rfl := h <;> decide

section

variable {ns : List Node} (hns : ∀ c ∈ ns, c.Readable)

include hns

theorem Expr.answers_allOfNodes (h : ∀ q ∈ ns.map Node.rule, q ∈ Rule.expressions) :
    Answers (Expr.allOfNodes ns) (Node.faultsAll ns) := by
  induction ns with
  | nil =>
    rw [Node.faultsAll_nil]
    exact .ok _
  | cons n ns ih =>
    obtain ⟨hn, hns⟩ := List.forall_mem_cons.1 hns
    obtain ⟨hrule, hrules⟩ := List.forall_mem_cons.1 h
    rw [Node.faultsAll_cons]
    refine (hn.expr (Rule.operands_of_expressions hrule)).bind fun e => ?_
    exact (ih hns hrules).bind_ok fun es => ⟨_, rfl⟩

theorem Stmt.answers_allOfNodes (h : ∀ q ∈ ns.map Node.rule, q = .statement) :
    Answers (Stmt.allOfNodes ns) (Node.faultsAll ns) := by
  induction ns with
  | nil =>
    rw [Node.faultsAll_nil]
    exact .ok _
  | cons n ns ih =>
    obtain ⟨hn, hns⟩ := List.forall_mem_cons.1 hns
    obtain ⟨hrule, hrules⟩ := List.forall_mem_cons.1 h
    rw [Node.faultsAll_cons, Stmt.allOfNodes_cons hrule]
    refine (hn.stmt hrule).bind fun s => ?_
    exact (ih hns hrules).bind_ok fun ss => ⟨_, rfl⟩

theorem Expr.answers_callsOfNodes (h : ∀ q ∈ ns.map Node.rule, q = .arguments) (start : Nat)
    (callee : Expr) : Answers (Expr.callsOfNodes start callee ns) (Node.faultsAll ns) := by
  induction ns generalizing callee with
  | nil =>
    rw [Node.faultsAll_nil]
    exact .ok _
  | cons n ns ih =>
    obtain ⟨hn, hmore⟩ := List.forall_mem_cons.1 hns
    obtain ⟨hrule, hrules⟩ := List.forall_mem_cons.1 h
    obtain ⟨label, span, text, args⟩ := n
    rw [Node.faultsAll_cons]
    exact (hn.arguments hrule).bind fun es => ih hmore hrules _

end

/-- The operators of a chain are read, and its operands in order. -/
theorem Expr.answers_chainOfNodes {k : Nat} (hk : 1 ≤ k) (hk' : k ≤ 6) {operand : Rule}
    (hoperand : operand ∈ Rule.operands) (owner : Rule) (span : Span) :
    ∀ (ns : List Node) (left : Expr), (∀ c ∈ ns, c.Readable) →
      Rule.Alternate (.operator k) operand (ns.map Node.rule) →
      Answers (Expr.chainOfNodes (Connective.reader k) owner span left ns) (Node.faultsAll ns)
  | [], left, _, _ => by
    rw [Node.faultsAll_nil]
    exact .ok left
  | [_], _, _, h => h.elim
  | op :: n :: ns, left, hns, h => by
    obtain ⟨hrule, hrule', h⟩ := h
    obtain ⟨hop, hns⟩ := List.forall_mem_cons.1 hns
    obtain ⟨hright, hns⟩ := List.forall_mem_cons.1 hns
    obtain ⟨c, hc⟩ := Connective.exists_reader hk hk' hop.shaped hrule
    have hplain : op.faults = [] :=
      hop.shaped.faults_of_plain (by rw [hrule]; exact Rule.operator_mem_plain hk hk')
    rw [Node.faultsAll_cons, hplain, List.nil_append, Node.faultsAll_cons,
      Expr.chainOfNodes_cons hc]
    refine (hright.expr (by rw [hrule']; exact hoperand)).bind fun right => ?_
    exact Expr.answers_chainOfNodes hk hk' hoperand owner span ns _ hns h

/-- The parameters and the body of a function are read, whether its name was read before or not. -/
theorem FunctionDef.answers_ofNodes {params body : Node} (hparams : params.Readable)
    (hbody : body.Readable) (hp : params.rule = .formalParameters)
    (hb : body.rule = .functionBody) (owner : Rule) (span : Span) (parts : FunctionParts) :
    Answers (FunctionDef.ofNodes owner span parts [params, body])
      (Node.faultsAll [params, body]) := by
  have hnone : params.faults = [] := hparams.shaped.faults_of_parameters hp
  obtain ⟨label, bodySpan, text, children⟩ := body
  obtain ⟨label', paramsSpan, text', ids⟩ := params
  obtain rfl : label = .functionBody := hb
  obtain rfl : label' = .formalParameters := hp
  rw [FunctionDef.ofNodes_pair, Node.faultsAll_cons, hnone, Node.faultsAll_singleton]
  exact (hbody.body rfl).bind_ok fun ss => ⟨_, rfl⟩

theorem Grammar.Node.eq_pair_of_rules {children : List Node} {q q' : Rule}
    (h : children.map Node.rule = [q, q']) :
    ∃ a b, children = [a, b] ∧ a.rule = q ∧ b.rule = q' := by
  obtain ⟨a, rest, rfl, ha, h⟩ := List.map_eq_cons_iff.1 h
  obtain ⟨b, rest, rfl, hb, h⟩ := List.map_eq_cons_iff.1 h
  obtain rfl := List.map_eq_nil_iff.1 h
  exact ⟨a, b, rfl, ha, hb⟩

theorem Grammar.Node.eq_singleton_of_rules {children : List Node} {q : Rule}
    (h : children.map Node.rule = [q]) : ∃ a, children = [a] ∧ a.rule = q := by
  obtain ⟨a, rest, rfl, ha, h⟩ := List.map_eq_cons_iff.1 h
  obtain rfl := List.map_eq_nil_iff.1 h
  exact ⟨a, rfl, ha⟩

theorem Grammar.Node.eq_triple_of_rules {children : List Node} {q q' q'' : Rule}
    (h : children.map Node.rule = [q, q', q'']) :
    ∃ a b c, children = [a, b, c] ∧ a.rule = q ∧ b.rule = q' ∧ c.rule = q'' := by
  obtain ⟨a, rest, rfl, ha, h⟩ := List.map_eq_cons_iff.1 h
  obtain ⟨b, c, rfl, hb, hc⟩ := Node.eq_pair_of_rules h
  exact ⟨a, b, c, rfl, ha, hb, hc⟩

section

variable {span : Span} {text : List Char} {children : List Node}
  (hchildren : ∀ c ∈ children, c.Readable)

include hchildren

/-- A chain of operators of one strength. -/
theorem Expr.answers_chain {k : Nat} (hk : 1 ≤ k) (hk' : k ≤ 6)
    (h : Rule.Chain (.ofStrength (k + 1)) (.operator k) (children.map Node.rule)) :
    Answers (Expr.ofNode ⟨.ofStrength k, span, text, children⟩) (Node.faultsAll children) := by
  have hoperand : Rule.ofStrength (k + 1) ∈ Rule.operands := by interval_cases k <;> decide
  obtain ⟨rest, hrules, halternate⟩ := h
  obtain ⟨first, ns, rfl, hfirst, rfl⟩ := List.map_eq_cons_iff.1 hrules
  obtain ⟨hreadable, hns⟩ := List.forall_mem_cons.1 hchildren
  rw [Node.faultsAll_cons, Expr.ofNode_chain hk hk']
  refine (hreadable.expr (by rw [hfirst]; exact hoperand)).bind fun e => ?_
  exact Expr.answers_chainOfNodes hk hk' hoperand _ span ns e hns halternate

theorem Expr.answers_assign (h : Rule.Admits .assignmentExpression (children.map Node.rule)) :
    Answers (Expr.ofNode ⟨.assignmentExpression, span, text, children⟩)
      (Node.faultsAll children) := by
  obtain ⟨q, hq, hrules⟩ := h
  obtain ⟨target, value, rfl, htarget, rfl⟩ := Node.eq_pair_of_rules hrules
  obtain ⟨ht, hv, -⟩ := by simpa only [List.forall_mem_cons] using hchildren
  have hnone : target.faults = [] := ht.shaped.faults_of_plain (by rw [htarget]; decide)
  simp only [Node.faultsAll_cons, Node.faultsAll_nil, hnone, List.nil_append, List.append_nil]
  exact (hv.expr (Rule.operands_of_expressions hq)).bind_ok fun e => ⟨_, rfl⟩

theorem Expr.answers_unary (h : Rule.Admits .unaryExpression (children.map Node.rule)) :
    Answers (Expr.ofNode ⟨.unaryExpression, span, text, children⟩) (Node.faultsAll children) := by
  obtain hrules | hrules := h
  · obtain ⟨op, operand, rfl, hop, hoperand⟩ := Node.eq_pair_of_rules hrules
    obtain ⟨ho, he, -⟩ := by simpa only [List.forall_mem_cons] using hchildren
    have hnone : op.faults = [] := ho.shaped.faults_of_plain (by rw [hop]; decide)
    obtain ⟨o, ho'⟩ := UnaryOp.exists_ofNode ho.shaped hop
    rw [Expr.ofNode_unary hop ho', Node.faultsAll_cons, hnone, Node.faultsAll_singleton]
    exact (he.expr (by rw [hoperand]; decide)).bind_ok fun e => ⟨_, rfl⟩
  · obtain ⟨operand, rfl, hoperand⟩ := Node.eq_singleton_of_rules hrules
    rw [Node.faultsAll_singleton, Expr.ofNode_operand (by rw [hoperand]; decide)]
    exact (hchildren operand (by simp)).expr (by rw [hoperand]; decide)

theorem Expr.answers_call (h : Rule.Admits .callExpression (children.map Node.rule)) :
    Answers (Expr.ofNode ⟨.callExpression, span, text, children⟩) (Node.faultsAll children) := by
  obtain ⟨q, hq, rest, hrules, harguments⟩ := h
  obtain ⟨callee, args, rfl, rfl, rfl⟩ := List.map_eq_cons_iff.1 hrules
  obtain ⟨hcallee, hargs⟩ := List.forall_mem_cons.1 hchildren
  rw [Node.faultsAll_cons]
  refine (hcallee.expr (Rule.operands_of_primaries hq)).bind fun e => ?_
  exact Expr.answers_callsOfNodes hargs harguments span.start e

theorem Expr.answers_function (h : Rule.Admits .functionExpression (children.map Node.rule)) :
    Answers (Expr.ofNode ⟨.functionExpression, span, text, children⟩)
      (Node.faultsAll children) := by
  obtain ⟨params, body, rfl, hp, hb⟩ := Node.eq_pair_of_rules h
  obtain ⟨hparams, hbody, -⟩ := by simpa only [List.forall_mem_cons] using hchildren
  exact (FunctionDef.answers_ofNodes hparams hbody hp hb _ span .none).bind_ok fun d => ⟨_, rfl⟩

/-- A node with one expression below it. -/
theorem Expr.answers_only (h : ∃ q ∈ Rule.expressions, children.map Node.rule = [q]) :
    ∃ value, children = [value] ∧ Answers (Expr.ofNode value) (Node.faultsAll children) := by
  obtain ⟨q, hq, hrules⟩ := h
  obtain ⟨value, rfl, rfl⟩ := Node.eq_singleton_of_rules hrules
  refine ⟨value, rfl, ?_⟩
  rw [Node.faultsAll_singleton]
  exact (hchildren value (by simp)).expr (Rule.operands_of_expressions hq)

variable {outer : Span} {chars : List Char}

theorem Stmt.answers_function (h : Rule.Admits .functionDeclaration (children.map Node.rule)) :
    Answers (Stmt.ofNode ⟨.statement, outer, chars, [⟨.functionDeclaration, span, text, children⟩]⟩)
      (Node.faultsAll children) := by
  obtain ⟨id, params, body, rfl, hid, hp, hb⟩ := Node.eq_triple_of_rules h
  obtain ⟨hname, hparams, hbody, -⟩ := by simpa only [List.forall_mem_cons] using hchildren
  have hnone : id.faults = [] := hname.shaped.faults_of_plain (by rw [hid]; decide)
  have hanswers := FunctionDef.answers_ofNodes hparams hbody hp hb .functionDeclaration span
    { FunctionParts.none with id := some (Ident.ofNode id) }
  rw [← FunctionDef.ofNodes_identifier hid] at hanswers
  rw [Node.faultsAll_cons, hnone, List.nil_append]
  exact hanswers.bind_ok fun d => ⟨_, rfl⟩

theorem Stmt.answers_variable (h : Rule.Admits .variableDeclaration (children.map Node.rule)) :
    Answers (Stmt.ofNode ⟨.statement, outer, chars, [⟨.variableDeclaration, span, text, children⟩]⟩)
      (Node.faultsAll children) := by
  obtain hrules | ⟨q, hq, hrules⟩ := h
  · obtain ⟨id, rfl, hid⟩ := Node.eq_singleton_of_rules hrules
    have hnone : id.faults = [] :=
      (hchildren id (by simp)).shaped.faults_of_plain (by rw [hid]; decide)
    rw [Node.faultsAll_cons, Node.faultsAll_nil, hnone]
    exact .ok _
  · obtain ⟨id, init, rfl, hid, rfl⟩ := Node.eq_pair_of_rules hrules
    obtain ⟨hname, hinit, -⟩ := by simpa only [List.forall_mem_cons] using hchildren
    have hnone : id.faults = [] := hname.shaped.faults_of_plain (by rw [hid]; decide)
    simp only [Node.faultsAll_cons, Node.faultsAll_nil, hnone, List.nil_append, List.append_nil]
    exact (hinit.expr (Rule.operands_of_expressions hq)).bind_ok fun e => ⟨_, rfl⟩

theorem Stmt.answers_print (h : Rule.Admits .printStatement (children.map Node.rule)) :
    Answers (Stmt.ofNode ⟨.statement, outer, chars, [⟨.printStatement, span, text, children⟩]⟩)
      (Node.faultsAll children) := by
  obtain ⟨value, rfl, hvalue⟩ := Expr.answers_only hchildren h
  exact hvalue.bind_ok fun e => ⟨_, rfl⟩

theorem Stmt.answers_return (h : Rule.Admits .returnStatement (children.map Node.rule)) :
    Answers (Stmt.ofNode ⟨.statement, outer, chars, [⟨.returnStatement, span, text, children⟩]⟩)
      (Node.faultsAll children) := by
  obtain hrules | honly := h
  · obtain rfl := List.map_eq_nil_iff.1 hrules
    rw [Node.faultsAll_nil]
    exact .ok _
  · obtain ⟨value, rfl, hvalue⟩ := Expr.answers_only hchildren honly
    exact hvalue.bind_ok fun e => ⟨_, rfl⟩

theorem Stmt.answers_if (h : Rule.Admits .ifStatement (children.map Node.rule)) :
    Answers (Stmt.ofNode ⟨.statement, outer, chars, [⟨.ifStatement, span, text, children⟩]⟩)
      (Node.faultsAll children) := by
  obtain ⟨q, hq, hrules | hrules⟩ := h
  · obtain ⟨test, a, rfl, rfl, ha⟩ := Node.eq_pair_of_rules hrules
    obtain ⟨htest, hthen, -⟩ := by simpa only [List.forall_mem_cons] using hchildren
    simp only [Node.faultsAll_cons, Node.faultsAll_nil, List.append_nil]
    refine (htest.expr (Rule.operands_of_expressions hq)).bind fun e => ?_
    exact (hthen.stmt ha).bind_ok fun s => ⟨_, rfl⟩
  · obtain ⟨test, a, b, rfl, rfl, ha, hb⟩ := Node.eq_triple_of_rules hrules
    obtain ⟨htest, hthen, helse, -⟩ := by simpa only [List.forall_mem_cons] using hchildren
    simp only [Node.faultsAll_cons, Node.faultsAll_nil, List.append_nil]
    refine (htest.expr (Rule.operands_of_expressions hq)).bind fun e => ?_
    refine (hthen.stmt ha).bind fun s => ?_
    exact (helse.stmt hb).bind_ok fun s' => ⟨_, rfl⟩

theorem Stmt.answers_block (h : Rule.Admits .blockStatement (children.map Node.rule)) :
    Answers (Stmt.ofNode ⟨.statement, outer, chars, [⟨.blockStatement, span, text, children⟩]⟩)
      (Node.faultsAll children) :=
  (Stmt.answers_allOfNodes hchildren h).bind_ok fun _ => ⟨_, rfl⟩

theorem Stmt.answers_expression (h : Rule.Admits .expressionStatement (children.map Node.rule)) :
    Answers (Stmt.ofNode ⟨.statement, outer, chars, [⟨.expressionStatement, span, text, children⟩]⟩)
      (Node.faultsAll children) := by
  obtain ⟨value, rfl, hvalue⟩ := Expr.answers_only hchildren h
  exact hvalue.bind_ok fun e => ⟨_, rfl⟩

end

namespace Grammar.Node

variable {span : Span} {text : List Char} {children : List Node}

/-- A node that stands for an expression, if the nodes below it are readable. -/
theorem Shaped.answers_expr (h : (⟨r, span, text, children⟩ : Node).Shaped)
    (hadmits : r.Admits (children.map Node.rule)) (hchildren : ∀ c ∈ children, c.Readable)
    (hr : r ∈ Rule.operands) :
    Answers (Expr.ofNode ⟨r, span, text, children⟩) (faults ⟨r, span, text, children⟩) := by
  by_cases hliteral : r ∈ Rule.literals
  · rw [Expr.ofNode_literal (n := ⟨r, span, text, children⟩) hliteral]
    exact (Literal.answers_ofNode h hliteral).bind_ok fun l => ⟨_, rfl⟩
  have hne : r ≠ .numericLiteral := by
    rintro rfl
    exact hliteral (by decide)
  rw [faults_node hne]
  cases r with
  | assignmentExpression => exact Expr.answers_assign hchildren hadmits
  | logicalOrExpression =>
    exact Expr.answers_chain (k := 1) hchildren (by decide) (by decide) hadmits
  | logicalAndExpression =>
    exact Expr.answers_chain (k := 2) hchildren (by decide) (by decide) hadmits
  | equalityExpression =>
    exact Expr.answers_chain (k := 3) hchildren (by decide) (by decide) hadmits
  | relationalExpression =>
    exact Expr.answers_chain (k := 4) hchildren (by decide) (by decide) hadmits
  | additiveExpression =>
    exact Expr.answers_chain (k := 5) hchildren (by decide) (by decide) hadmits
  | multiplicativeExpression =>
    exact Expr.answers_chain (k := 6) hchildren (by decide) (by decide) hadmits
  | unaryExpression => exact Expr.answers_unary hchildren hadmits
  | callExpression => exact Expr.answers_call hchildren hadmits
  | functionExpression => exact Expr.answers_function hchildren hadmits
  | identifier =>
    rw [List.map_eq_nil_iff.1 hadmits, faultsAll_nil]
    exact .ok _
  | nilLiteral | booleanLiteral | numericLiteral | stringLiteral =>
    exact absurd (by decide) hliteral
  | _ => exact absurd hr (by decide)

/-- The node below that of a statement, if the nodes below it are readable. -/
theorem answers_part (hadmits : r.Admits (children.map Node.rule))
    (hchildren : ∀ c ∈ children, c.Readable) (hr : r ∈ Rule.statements) (outer : Span)
    (chars : List Char) :
    Answers (Stmt.ofNode ⟨.statement, outer, chars, [⟨r, span, text, children⟩]⟩)
      (faults ⟨r, span, text, children⟩) := by
  have hne : r ≠ .numericLiteral := by
    rintro rfl
    exact (by decide : Rule.numericLiteral ∉ Rule.statements) hr
  rw [faults_node hne]
  cases r with
  | functionDeclaration => exact Stmt.answers_function hchildren hadmits
  | variableDeclaration => exact Stmt.answers_variable hchildren hadmits
  | printStatement => exact Stmt.answers_print hchildren hadmits
  | returnStatement => exact Stmt.answers_return hchildren hadmits
  | ifStatement => exact Stmt.answers_if hchildren hadmits
  | blockStatement => exact Stmt.answers_block hchildren hadmits
  | expressionStatement => exact Stmt.answers_expression hchildren hadmits
  | _ => exact absurd hr (by decide)

/-- Reading a shaped tree fails only at an integer that is too large, and at the first one. -/
theorem Shaped.readable (h : m.Shaped) : m.Readable := by
  induction h with
  | @mk r span text children hadmits hspells hshaped ih =>
    have h : (⟨r, span, text, children⟩ : Node).Shaped := .mk hadmits hspells hshaped
    -- a statement is read off the node below it, so that node has a field of its own
    refine ⟨h, h.answers_expr hadmits ih, ?_, ?_, answers_part hadmits ih, ?_⟩
    · rintro rfl
      rw [faults_node (by decide)]
      exact Expr.answers_allOfNodes ih hadmits
    · rintro rfl
      rw [faults_node (by decide)]
      exact Stmt.answers_allOfNodes ih hadmits
    · rintro rfl
      obtain ⟨q, hq, hrules⟩ := hadmits
      obtain ⟨inner, rfl, rfl⟩ := eq_singleton_of_rules hrules
      rw [faults_node (by decide), faultsAll_singleton]
      exact (ih inner (by simp)).part hq span text

end Grammar.Node

/-- A script ends with a node for its end. -/
theorem Program.answers_ofNodes (h : m.Shaped) (hm : m.rule = .script) :
    Answers (Program.ofNodes [m]) m.faults := by
  obtain @⟨r, span, text, children, hadmits, -, hshaped⟩ := h
  obtain rfl : r = .script := hm
  obtain ⟨rules, hrules, hstatements⟩ := hadmits
  obtain ⟨ns, rest, rfl, rfl, hrest⟩ := List.map_eq_append_iff.1 hrules
  obtain ⟨last, rfl, hlast⟩ := Node.eq_singleton_of_rules hrest
  have hnone : last.faults = [] :=
    (hshaped last (by simp)).faults_of_plain (by rw [hlast]; decide)
  rw [Node.faults_node (by decide), Node.faultsAll_append, Node.faultsAll_cons,
    Node.faultsAll_nil, hnone, List.append_nil, List.append_nil, Program.ofNodes,
    Stmt.allOfNodes_finish ns hlast]
  -- the node of the end of the input is passed over
  have hns : ∀ c ∈ ns, c.Readable := fun c hc => (hshaped c (List.mem_append_left _ hc)).readable
  exact (Stmt.answers_allOfNodes hns hstatements).bind_ok fun ss => ⟨_, rfl⟩

/-! ## Leaves -/

namespace Grammar

variable {owner : Rule} {ts : List Tree} {p : Pattern}

/-- An integer that is too large. -/
def Leaf.oversized : Leaf → Bool
  | layout _ => false
  | terminal t => t.rule = .numericLiteral && Literal.Oversized t.text

/-- The spans of the integers that are too large, in order, if the first leaf starts at `pos`. -/
def Leaf.faults (pos : Nat) : List Leaf → List Span
  | [] => []
  | l :: ls =>
    if l.oversized then ⟨pos, pos + utf8Size l.text⟩ :: faults (pos + utf8Size l.text) ls
    else faults (pos + utf8Size l.text) ls

namespace Leaf

theorem oversized_iff {l : Leaf} :
    l.oversized = true ↔ ∃ t, l = .terminal ⟨.numericLiteral, t⟩ ∧ Literal.Oversized t := by
  cases l with
  | layout t => simp [oversized]
  | terminal t =>
    obtain ⟨r, t⟩ := t
    simp only [oversized, Bool.and_eq_true, decide_eq_true_eq, terminal.injEq, Terminal.mk.injEq]
    constructor
    · rintro ⟨rfl, ht⟩
      exact ⟨t, ⟨rfl, rfl⟩, ht⟩
    · rintro ⟨_, ⟨rfl, rfl⟩, ht⟩
      exact ⟨rfl, ht⟩

theorem faults_append (ls ls' : List Leaf) (pos : Nat) : faults pos (ls ++ ls') =
    faults pos ls ++ faults (pos + utf8Size (ls.flatMap Leaf.text)) ls' := by
  induction ls generalizing pos with
  | nil => rfl
  | cons l ls ih =>
    rw [List.cons_append, faults, faults, ih, List.flatMap_cons, utf8Size_append, Nat.add_assoc]
    split <;> rfl

theorem faults_eq_nil {ls : List Leaf}
    (h : ∀ t, .terminal ⟨.numericLiteral, t⟩ ∈ ls → ¬Literal.Oversized t) (pos : Nat) :
    faults pos ls = [] := by
  induction ls generalizing pos with
  | nil => rfl
  | cons l ls ih =>
    have hl : ¬l.oversized := fun ho => by
      obtain ⟨t, rfl, ht⟩ := oversized_iff.1 ho
      exact h t (List.mem_cons_self ..) ht
    rw [faults, if_neg hl, ih fun t ht => h t (List.mem_cons_of_mem l ht)]

/-- The first fault is that of the first leaf at fault. -/
theorem exists_of_faults_eq_cons {ls : List Leaf} {pos : Nat} {span : Span} {rest : List Span}
    (h : faults pos ls = span :: rest) : ∃ before t after,
      ls = before ++ .terminal ⟨.numericLiteral, t⟩ :: after ∧
      (∀ t', .terminal ⟨.numericLiteral, t'⟩ ∈ before → ¬Literal.Oversized t') ∧
      Literal.Oversized t ∧ span = ⟨pos + utf8Size (before.flatMap Leaf.text),
        pos + utf8Size (before.flatMap Leaf.text) + utf8Size t⟩ := by
  induction ls generalizing pos with
  | nil => cases h
  | cons l ls ih =>
    rw [faults] at h
    split at h
    · next hl =>
      obtain ⟨t, rfl, ht⟩ := oversized_iff.1 hl
      obtain ⟨rfl, -⟩ := List.cons.inj h
      exact ⟨[], t, ls, rfl, by simp, ht, rfl⟩
    · next hl =>
      obtain ⟨before, t, after, rfl, hbefore, ht, rfl⟩ := ih h
      refine ⟨l :: before, t, after, rfl, fun t' hmem ho => ?_, ht, ?_⟩
      · obtain rfl | hmem := List.mem_cons.1 hmem
        · exact hl (oversized_iff.2 ⟨t', rfl, ho⟩)
        · exact hbefore t' hmem ho
      · rw [List.flatMap_cons, utf8Size_append, Nat.add_assoc]

end Leaf

namespace Tree

variable {us : List Tree}

/-- The nodes of a forest and its leaves are at fault at the same spans, wherever it stands. -/
def Tallies (owner : Rule) (ts : List Tree) : Prop :=
  ∀ pos, Node.faultsAll (locateFrom [] [] pos ts).nodes = Leaf.faults pos (leavesAll owner ts)

theorem tallies_nil : Tallies owner [] := fun pos => by
  rw [locateFrom, leavesAll, Leaf.faults]
  exact Node.faultsAll_nil

theorem Tallies.append (hts : Tallies owner ts) (hus : Tallies owner us) :
    Tallies owner (ts ++ us) := fun pos => by
  rw [nodes_append, Node.faultsAll_append, hts, hus, leavesAll_append, Leaf.faults_append,
    flatMap_text_leavesAll]

theorem tallies_gap (cs : List Char) : Tallies owner (Gap.tree cs) := fun pos => by
  rw [nodes_gap, Node.faultsAll_nil]
  cases cs with
  | nil => rfl
  | cons c cs => rfl

theorem tallies_terminal (howner : owner ≠ .numericLiteral) (t : List Char) :
    Tallies owner [terminal t] := fun pos => by
  rw [nodes_terminal, Node.faultsAll_nil, leavesAll, leavesAll, leaves, List.append_nil]
  refine (Leaf.faults_eq_nil (fun t' ht => ?_) pos).symm
  cases List.mem_singleton.1 ht
  exact absurd rfl howner

theorem tallies_node (hr : r ≠ .numericLiteral) (h : Tallies r ts) :
    Tallies owner [node r ts] := fun pos => by
  rw [nodes_node, Node.faultsAll_singleton, Node.faults_node hr, h, leavesAll_node]

/-- A numeral is one leaf. -/
theorem tallies_numeral (t : List Char) :
    Tallies owner [node .numericLiteral [terminal t]] := fun pos => by
  rw [nodes_node, nodes_terminal, Node.faultsAll_singleton, Node.faults, if_pos rfl,
    leavesAll_node, leavesAll, leavesAll, leaves, List.append_nil]
  simp only [yieldAll, yield, Yield.append_empty, Yield.text_ofText, textAll_cons, text_terminal,
    textAll_nil, List.append_nil, Leaf.faults, Leaf.oversized, Leaf.text, decide_true,
    Bool.true_and, decide_eq_true_eq]

end Tree

/-- A derived forest is made of gaps, texts and nodes, and of numerals, which are one text each.
What holds of these, and of two forests together, holds of it. -/
theorem Pattern.Derives.forest {P : Rule → List Tree → Prop} (hnil : ∀ owner, P owner [])
    (happend : ∀ {owner us vs}, P owner us → P owner vs → P owner (us ++ vs))
    (hgap : ∀ owner cs, P owner (Gap.tree cs))
    (hterminal : ∀ {owner} t, owner ≠ .numericLiteral → P owner [.terminal t])
    (hnode : ∀ {owner r us}, r ≠ .numericLiteral → P r us → P owner [.node r us])
    (hnumeral : ∀ {owner t}, Rule.Spells .numericLiteral t →
      P owner [.node .numericLiteral [.terminal t]])
    (h : p.Derives n ts) (howner : owner ≠ .numericLiteral) : P owner ts := by
  induction h generalizing owner with
  | empty | finish | manyNone | ahead | notAhead => exact hnil owner
  | text | char => exact hterminal _ howner
  | seq _ _ _ ihp ihq => exact happend (ihp howner) (happend (hgap owner _) (ihq howner))
  | altLeft _ ih | altRight _ ih | manyOne _ ih => exact ih howner
  | manyMore _ _ _ _ ihm ihp => exact happend (ihm howner) (happend (hgap owner _) (ihp howner))
  | @rule n r us h ih =>
    have hwrap (hr : r.kind = .normal ∨ r.kind = .compound) : P owner (r.wrap us) := by
      have hne : r ≠ .numericLiteral := by
        rintro rfl
        rcases hr with hr | hr <;> cases hr
      rw [r.wrap_node hr]
      exact hnode hne (ih hne)
    cases hkind : r.kind with
    | silent =>
      rw [r.wrap_silent hkind]
      exact ih howner
    | normal => exact hwrap (.inl hkind)
    | compound => exact hwrap (.inr hkind)
    | atomic =>
      -- the one text below the node is a numeral only if the rule is that of numerals
      rw [r.wrap_atomic hkind]
      by_cases hr : r = .numericLiteral
      · subst hr
        exact hnumeral (Rule.spells_of_atomic hkind h)
      · exact hnode hr (hterminal _ hr)

theorem Pattern.Derives.tallies (h : p.Derives n ts) (howner : owner ≠ .numericLiteral) :
    Tree.Tallies owner ts :=
  h.forest (fun _ => Tree.tallies_nil) Tree.Tallies.append (fun _ => Tree.tallies_gap)
    (fun t ho => Tree.tallies_terminal ho t) Tree.tallies_node
    (fun _ => Tree.tallies_numeral _) howner

/-- The leaves of numerals are digits, or digits around a point. -/
theorem Pattern.Derives.spells_numeral (h : p.Derives n ts) (howner : owner ≠ .numericLiteral) :
    ∀ t, .terminal ⟨.numericLiteral, t⟩ ∈ leavesAll owner ts → Rule.Spells .numericLiteral t := by
  refine h.forest (P := fun owner ts => ∀ t, .terminal ⟨.numericLiteral, t⟩ ∈ leavesAll owner ts →
    Rule.Spells .numericLiteral t) ?_ ?_ ?_ ?_ ?_ ?_ howner
  · simp [leavesAll]
  · intro owner us vs hus hvs t ht
    rw [Tree.leavesAll_append] at ht
    exact (List.mem_append.1 ht).elim (hus t) (hvs t)
  · rintro owner (_ | ⟨c, cs⟩) <;> simp [Gap.tree, leavesAll, Tree.leaves]
  · intro owner u ho t ht
    simp only [leavesAll, Tree.leaves, List.append_nil, List.mem_singleton, Leaf.terminal.injEq,
      Terminal.mk.injEq] at ht
    exact absurd ht.1.symm ho
  · intro owner r us hr hus t ht
    rw [Tree.leavesAll_node] at ht
    exact hus t ht
  · intro owner u hu t ht
    simp only [leavesAll, Tree.leaves, List.append_nil, List.mem_singleton, Leaf.terminal.injEq,
      Terminal.mk.injEq, true_and] at ht
    exact ht ▸ hu

end Grammar

/-! ## Numerals in scripts -/

section

variable {c d m m' : Place} {n : Node}

/-- An operand that no arguments follow and no operator precedes. -/
theorem Grammar.locates_operand (h : (rule .primaryExpression).Locates c [n] d)
    (hd : d.skip = d) (hs : Stops 0 d.rest) (hunary : (rule .unaryOperator).Fails c.rest) :
    ∃ e, (rule .unaryExpression).Locates c [e] d ∧ e.faults = n.faults := by
  have hnone := locates_many_none (hs.mono (Nat.zero_le 8)).fails_arguments
  rw [hd] at hnone
  have hcall : (Rule.body .callExpression).Locates c [n] d := h.seq hnone
  obtain ⟨chars, hcall⟩ := Locates.rule (r := .callExpression) rfl hcall
  have hplain : (Rule.body .unaryExpression).Locates c _ d := .alt_right hunary.seq_left hcall
  obtain ⟨chars', hplain⟩ := Locates.rule (r := .unaryExpression) rfl hplain
  exact ⟨_, hplain, by simp [Node.faults_node]⟩

/-- An operand that nothing else is joined to is an expression. -/
theorem Grammar.locates_expression (h : (rule .unaryExpression).Locates c [n] d)
    (hd : d.skip = d) (hs : Stops 0 d.rest) (hassign : (rule .assignmentExpression).Fails c.rest) :
    ∃ e, (rule .expression).Locates c [e] d ∧ e.faults = n.faults := by
  have hend {p : Pattern} (hp : p.Fails d.rest) : (many .layout p).Locates d [] d := by
    have hmany := locates_many_none hp
    rwa [hd] at hmany
  -- from the strongest operators to the weakest, none of which follows
  have hchain : ∀ k ≤ 6, ∃ e, (rule (.ofStrength (7 - k))).Locates c [e] d ∧
      e.faults = n.faults := by
    intro k hk
    induction k with
    | zero => exact ⟨_, h, rfl⟩
    | succ k ih =>
      obtain ⟨e, he, hfaults⟩ := ih (by omega)
      have hstrength : 7 - k = 7 - (k + 1) + 1 := by omega
      have hkind := Rule.kind_ofStrength (k := 7 - (k + 1)) (by omega) (by omega)
      have hne : Rule.ofStrength (7 - (k + 1)) ≠ .numericLiteral := by
        intro heq
        rw [heq] at hkind
        cases hkind
      have hstops : Stops (7 - (k + 1)) d.rest := hs.mono (Nat.zero_le _)
      have hfails := hstops.fails_operator (by omega) (by omega)
      have hbody : (Rule.ofStrength (7 - (k + 1))).body.Locates c [e] d := by
        rw [Rule.body_ofStrength (by omega) (by omega), ← hstrength]
        exact he.seq (hend hfails.seq_left)
      obtain ⟨chars, hnode⟩ := hbody.rule hkind
      refine ⟨_, hnode, ?_⟩
      rw [Node.faults_node hne, Node.faultsAll_singleton, hfaults]
  obtain ⟨e, he, hfaults⟩ := hchain 6 (Nat.le_refl 6)
  have hbody : (Rule.body .expression).Locates c [e] d := .alt_right hassign he
  exact ⟨e, hbody.silent rfl, hfaults⟩

/-- A numeral, of whatever size, as an operand. -/
theorem Grammar.locates_numeral {t : Token} (ht : t.Stands c d) (hn : t.IsNumeral)
    (hothers : ∀ r ∈ [Rule.functionExpression, .nilLiteral, .booleanLiteral, .unaryOperator],
      r.rejects Rule.topRank t.text.head? = true)
    (hd : d.skip = d) (hs : Stops 0 d.rest) :
    ∃ n, (rule .unaryExpression).Locates c [n] d ∧
      n.faults = if Literal.Oversized t.text then [c.upTo d] else [] := by
  have hhead : (Layout.skip c.rest).head? = t.text.head? := ht.lexes.head? ht.valid
  simp only [List.forall_mem_cons] at hothers
  obtain ⟨hfunction, hnil, hbool, hunary, -⟩ := hothers
  have hnumeral : (rule .numericLiteral).Locates c [⟨.numericLiteral, c.upTo d, t.text, []⟩] d :=
    ht.locates_leaf (takes_numericLiteral hn ht.valid) (by decide)
  have hliteral : (Rule.body .literal).Locates c _ d :=
    .alt_right (Rule.fails_of_rejects hhead hnil)
      (.alt_right (Rule.fails_of_rejects hhead hbool) (.alt_left hnumeral))
  have hprimary : (Rule.body .primaryExpression).Locates c _ d :=
    .alt_right (Rule.fails_of_rejects hhead hfunction) (.alt_left (hliteral.silent rfl))
  obtain ⟨n, hlocates, hfaults⟩ := locates_operand (hprimary.silent rfl) hd hs
    (Rule.fails_of_rejects hhead hunary)
  exact ⟨n, hlocates, by rw [hfaults, Node.faults, if_pos rfl]⟩

/-- The statement that prints a numeral, of whatever size. -/
theorem Grammar.locates_print {t : Token} (ht : t.Stands m m') (hn : t.IsNumeral)
    (hothers : ∀ r ∈ [Rule.functionExpression, .nilLiteral, .booleanLiteral, .unaryOperator,
      .assignmentExpression], r.rejects Rule.topRank t.text.head? = true)
    (hprint : Token.kwPrint.Stands c m) (hsemi : (Token.symbol .semicolon).Stands m' d)
    (hm' : m'.skip = m') :
    ∃ n, (rule .statement).Locates c [n] d ∧
      n.faults = if Literal.Oversized t.text then [m.upTo m'] else [] := by
  have hhead : (Layout.skip m.rest).head? = t.text.head? := ht.lexes.head? ht.valid
  have hs : Stops 0 m'.rest := stops_of_symbol (by simp) hsemi.lexes
  obtain ⟨n, hoperand, hnumeral⟩ := locates_numeral ht hn
    (fun r hr => hothers r (List.mem_append_left [Rule.assignmentExpression] hr)) hm' hs
  obtain ⟨e, he, hfaults⟩ := locates_expression hoperand hm' hs
    (Rule.fails_of_rejects hhead (hothers .assignmentExpression (by simp)))
  have hbody : (Rule.body .printStatement).Locates c [e] d :=
    hprint.locates_opener Rule.isWord_print (he.seq hsemi.locates_symbol)
  obtain ⟨chars, hinner⟩ := Locates.rule (r := .printStatement) rfl hbody
  have hword := ((lexes_word Rule.isWord_print.valid.2).1 hprint.lexes).1
  have hfn : (rule .functionDeclaration).Fails c.rest :=
    fails_statementWord (w := ['f', 'n']) (by simp [statementWords]) (by rw [hword]; decide)
  have hlet : (rule .variableDeclaration).Fails c.rest :=
    fails_statementWord (w := ['l', 'e', 't']) (by simp [statementWords]) (by rw [hword]; decide)
  have hstatement : (Rule.body .statement).Locates c _ d :=
    .alt_right hfn (.alt_right hlet (.alt_left hinner))
  obtain ⟨chars', hnode⟩ := Locates.rule (r := .statement) rfl hstatement
  refine ⟨_, hnode, ?_⟩
  rw [Node.faults_node (by decide), Node.faultsAll_singleton, Node.faults_node (by decide),
    Node.faultsAll_singleton, hfaults, hnumeral]

end

/-! ## Scripts -/

/-- What a script is matched with is one node. -/
theorem Program.exists_locate_eq {ts : List Tree} (h : (rule .script).Derives n ts) :
    ∃ m, Tree.locate ts = [m] ∧ m.Shaped ∧ m.rule = .script := by
  have hshaped := h.shaped 0
  cases h with
  | rule h =>
    rw [Rule.wrap_node .script (by decide), Tree.nodes_node] at hshaped
    rw [Rule.wrap_node .script (by decide), Tree.locate, Tree.nodes_node]
    exact ⟨_, rfl, hshaped _ (List.mem_singleton_self _), rfl⟩

/-- A script that is matched is read, unless an integer in it is too large. -/
theorem Program.answers_read {s : String} {ts : List Tree}
    (h : Program.matchScript s.toList = .ok ts) :
    Answers (Program.read s) (Leaf.faults 0 (leavesAll .script ts)) := by
  obtain ⟨⟨n, hderives⟩, -⟩ := Program.derives_of_matchScript h
  obtain ⟨m, hm, hshaped, hrule⟩ := Program.exists_locate_eq hderives
  have hfaults : m.faults = Leaf.faults 0 (leavesAll .script ts) := by
    rw [← hderives.tallies (by decide) 0, ← Tree.locate, hm, Node.faultsAll_singleton]
  have hread : Program.read s = Program.ofNodes [m] := by
    rw [Program.read, h, ← hm]
    rfl
  rw [hread, ← hfaults]
  exact Program.answers_ofNodes hshaped hrule

/-- A script that is not matched is not read. -/
theorem Program.read_unmatched {s : String} {e : Error}
    (h : Program.matchScript s.toList = .error e) : Program.read s = .error e ∧
      ∃ report pos, e = (ScriptFault.unmatched report).at ⟨pos, pos⟩ := by
  constructor
  · rw [Program.read, h]
    rfl
  · unfold Program.matchScript at h
    split at h
    · cases h
    · cases h
      exact ⟨_, _, rfl⟩

theorem Program.read_ne_error {s : String} {fault : ScriptFault}
    (hunmatched : ∀ report, fault ≠ .unmatched report) (hoversized : fault ≠ .oversized)
    (span : Span) : Program.read s ≠ .error (fault.at span) := by
  cases hmatch : Program.matchScript s.toList with
  | error e =>
    obtain ⟨hread, report, pos, rfl⟩ := Program.read_unmatched hmatch
    rw [hread]
    rintro ⟨⟩
    exact hunmatched report rfl
  | ok ts => exact (Program.answers_read hmatch).ne_error hoversized span

/-- Reading a script fails where the grammar does not match it, and else only at an integer that is
too large. The leaves of the match are the script in order, and those of numerals are digits, or
digits around a point. If none of them is an integer that is too large, there is a program; and else
the span of the first one is reported. There always is a script in a match, and it is never
misshapen : each node that has to be there is there, no part of a function is unexpected and none
lacks its body, and each statement, expression, operator and literal is a known one. -/
theorem Program.read_fails_at_first_oversized (s : String) :
    (∀ e, Program.matchScript s.toList = .error e →
      Program.read s = .error e ∧
        ∃ report pos, e = (ScriptFault.unmatched report).at ⟨pos, pos⟩) ∧
    (∀ ts, Program.matchScript s.toList = .ok ts →
      (∃ n, (rule .script).Derives n ts) ∧
      (leavesAll .script ts).flatMap Leaf.text = s.toList ∧
      (∀ t, .terminal ⟨.numericLiteral, t⟩ ∈ leavesAll .script ts →
        ∃ token : Token, token.IsNumeral ∧ token.Valid ∧ t = token.text) ∧
      ((∀ t, .terminal ⟨.numericLiteral, t⟩ ∈ leavesAll .script ts → ¬Literal.Oversized t) →
        ∃ p, Program.read s = .ok p) ∧
      ∀ before t after, leavesAll .script ts = before ++ .terminal ⟨.numericLiteral, t⟩ :: after →
        (∀ t', .terminal ⟨.numericLiteral, t'⟩ ∈ before → ¬Literal.Oversized t') →
        Literal.Oversized t →
        Program.read s = .error (ScriptFault.oversized.at ⟨utf8Size (before.flatMap Leaf.text),
          utf8Size (before.flatMap Leaf.text) + utf8Size t⟩)) ∧
    ∀ span, (∀ label shape,
        Program.read s ≠ .error ((ScriptFault.misshapen label shape).at span)) ∧
      Program.read s ≠ .error (ScriptFault.noScript.at span) := by
  refine ⟨fun e => Program.read_unmatched, fun ts h => ?_,
    fun span => ⟨fun label shape => ?_, ?_⟩⟩
  · have hanswers := Program.answers_read h
    obtain ⟨⟨n, hderives⟩, htext⟩ := Program.derives_of_matchScript h
    refine ⟨⟨n, hderives⟩, (Tree.flatMap_text_leavesAll _ _).trans htext,
      hderives.spells_numeral (by decide), fun hnone => ?_,
      fun before t after hleaves hbefore ht => ?_⟩
    · rwa [Leaf.faults_eq_nil hnone] at hanswers
    · have hfault : Leaf.oversized (.terminal ⟨.numericLiteral, t⟩) = true :=
        Leaf.oversized_iff.2 ⟨t, rfl, ht⟩
      rw [hleaves, Leaf.faults_append, Leaf.faults_eq_nil hbefore, Leaf.faults, if_pos hfault,
        Nat.zero_add] at hanswers
      exact hanswers
  · exact Program.read_ne_error (by rintro report ⟨⟩) (by rintro ⟨⟩) span
  · exact Program.read_ne_error (by rintro report ⟨⟩) (by rintro ⟨⟩) span

/-- Of two integers the first is the greatest that there is, and the second is too large. -/
theorem Program.read_fails_at_first_oversized_print :
    (∃ ts, Program.matchScript "print 9223372036854775807; print 9223372036854775808;".toList =
      .ok ts) ∧
    Program.read "print 9223372036854775807; print 9223372036854775808;" =
      .error (ScriptFault.oversized.at ⟨33, 52⟩) := by
  have hgreatest : (Token.integer "9223372036854775807".toList).Stands
      ⟨5, " 9223372036854775807; print 9223372036854775808;".toList⟩
      ⟨25, "; print 9223372036854775808;".toList⟩ :=
    ⟨⟨by simp, List.all_eq_true.1 rfl⟩, rfl, ⟨rfl, rfl⟩, rfl⟩
  have hlarger : (Token.integer "9223372036854775808".toList).Stands
      ⟨32, " 9223372036854775808;".toList⟩ ⟨52, ";".toList⟩ :=
    ⟨⟨by simp, List.all_eq_true.1 rfl⟩, rfl, ⟨rfl, rfl⟩, rfl⟩
  have hfirst : ∃ n, (rule .statement).Locates
      ⟨0, "print 9223372036854775807; print 9223372036854775808;".toList⟩ [n]
      ⟨26, " print 9223372036854775808;".toList⟩ ∧ n.faults = [] :=
    locates_print hgreatest trivial (by decide)
      ⟨Rule.isWord_print.valid, rfl, by rintro c ⟨⟩; rfl, rfl⟩
      ⟨trivial, rfl, Symbol.ends_of_extension rfl _, rfl⟩ rfl
  have hsecond : ∃ n, (rule .statement).Locates ⟨26, " print 9223372036854775808;".toList⟩ [n]
      ⟨53, []⟩ ∧ n.faults = [⟨33, 52⟩] :=
    locates_print hlarger trivial (by decide)
      ⟨Rule.isWord_print.valid, rfl, by rintro c ⟨⟩; rfl, rfl⟩
      ⟨trivial, rfl, Symbol.ends_of_extension rfl _, rfl⟩ rfl
  obtain ⟨n, hn, hclear⟩ := hfirst
  obtain ⟨n', hn', hfault⟩ := hsecond
  have hend : (rule .statement).Fails [] := EndsBlock.fails_statement (by simp [EndsBlock])
  obtain ⟨chars, hfinish⟩ := locates_endOfInput (c := ⟨53, []⟩) rfl
  obtain ⟨chars', found, hrun, hnodes, -⟩ :=
    run_script ((hn.many (.cons hn' (.nil hend))).seq hfinish)
  have hmatch : Program.matchScript "print 9223372036854775807; print 9223372036854775808;".toList =
      .ok found.parts := by
    rw [Program.matchScript, hrun]
  obtain ⟨⟨depth, hderives⟩, -⟩ := Program.derives_of_matchScript hmatch
  have hfaults : Leaf.faults 0 (leavesAll .script found.parts) = [⟨33, 52⟩] := by
    rw [← hderives.tallies (by decide) 0, hnodes]
    simp [Node.faults_node, hclear, hfault]
  obtain ⟨before, t, after, hleaves, hbefore, ht, hspan⟩ := Leaf.exists_of_faults_eq_cons hfaults
  obtain ⟨-, haccepted, -⟩ := Program.read_fails_at_first_oversized
    "print 9223372036854775807; print 9223372036854775808;"
  obtain ⟨-, -, -, -, hread⟩ := haccepted _ hmatch
  refine ⟨⟨_, hmatch⟩, (hread before t after hleaves hbefore ht).trans ?_⟩
  rw [hspan, Nat.zero_add]

end Scoped
