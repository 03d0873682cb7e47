import Scoped.Proofs.Faithfulness

/-!
# The shape of matches

The grammar fixes which nodes can stand below a node, and which texts an operator or a literal can
hold : `Rule.Admits` and `Rule.Spells` say so for one rule, without its lookaheads, and with the
rules that leave no node already replaced by what they stand for. `Node.Shaped` says it of a
whole tree. Every node of a derived forest is shaped, wherever it stands
(`Pattern.Derives.shaped`) : the induction is over the derivation, and what one rule adds
is seen in its body.
-/

namespace Scoped.Grammar

open Pattern
open Scoped.Grammar.Tree (locateFrom textAll yieldAll)

variable {n k : Nat} {r : Rule} {owner : Rule} {ns ms : List Node} {ls : List Lexeme}

/-! ## Shapes -/

namespace Rule

/-- The nodes that an expression leaves. -/
def expressions : List Rule := [assignmentExpression, logicalOrExpression]

/-- The nodes that a literal leaves. -/
def literals : List Rule := [nilLiteral, booleanLiteral, numericLiteral, stringLiteral]

/-- The nodes that an operand leaves that has no operators, unless they are in parentheses. -/
def primaries : List Rule := functionExpression :: identifier :: (literals ++ expressions)

/-- The nodes below that of a statement. -/
def statements : List Rule :=
  [functionDeclaration, variableDeclaration, printStatement, returnStatement, ifStatement,
    blockStatement, expressionStatement]

/-- Operators and operands in turn. -/
def Alternate (operator operand : Rule) : List Rule → Prop
  | [] => True
  | [_] => False
  | q :: q' :: rest => q = operator ∧ q' = operand ∧ Alternate operator operand rest

/-- An operand, and then operators and operands in turn. -/
def Chain (operand operator : Rule) (rules : List Rule) : Prop :=
  ∃ rest, rules = operand :: rest ∧ Alternate operator operand rest

/-- The nodes below a node of the rule can have these rules. -/
def Admits : Rule → List Rule → Prop
  | script, rules => ∃ rest, rules = rest ++ [endOfInput] ∧ ∀ q ∈ rest, q = statement
  | statement, rules => ∃ q ∈ statements, rules = [q]
  | functionDeclaration, rules => rules = [identifier, formalParameters, functionBody]
  | functionExpression, rules => rules = [formalParameters, functionBody]
  | variableDeclaration, rules => rules = [identifier] ∨ ∃ q ∈ expressions, rules = [identifier, q]
  | printStatement, rules | expressionStatement, rules => ∃ q ∈ expressions, rules = [q]
  | returnStatement, rules => rules = [] ∨ ∃ q ∈ expressions, rules = [q]
  | ifStatement, rules =>
    ∃ q ∈ expressions, rules = [q, statement] ∨ rules = [q, statement, statement]
  | blockStatement, rules | functionBody, rules => ∀ q ∈ rules, q = statement
  | formalParameters, rules => ∀ q ∈ rules, q = identifier
  | arguments, rules => ∀ q ∈ rules, q ∈ expressions
  | assignmentExpression, rules => ∃ q ∈ expressions, rules = [identifier, q]
  | logicalOrExpression, rules => Chain logicalAndExpression orOperator rules
  | logicalAndExpression, rules => Chain equalityExpression andOperator rules
  | equalityExpression, rules => Chain relationalExpression equalityOperator rules
  | relationalExpression, rules => Chain additiveExpression relationalOperator rules
  | additiveExpression, rules => Chain multiplicativeExpression additiveOperator rules
  | multiplicativeExpression, rules => Chain unaryExpression multiplicativeOperator rules
  | unaryExpression, rules => rules = [unaryOperator, unaryExpression] ∨ rules = [callExpression]
  | callExpression, rules => ∃ q ∈ primaries, ∃ rest, rules = q :: rest ∧ ∀ q ∈ rest, q = arguments
  | stringLiteral, rules => rules = [stringCharacters]
  -- no match of a silent rule leaves a node
  | whitespace, _ | comment, _ | identChar, _ | expression, _ | primaryExpression, _
  | literal, _ => False
  | _, rules => rules = []

/-- A node of the rule can hold this text. -/
def Spells : Rule → List Char → Prop
  | orOperator, t => t = ['o', 'r']
  | andOperator, t => t = ['a', 'n', 'd']
  | equalityOperator, t => t ∈ [['=', '='], ['!', '=']]
  | relationalOperator, t => t ∈ [['<', '='], ['>', '='], ['<'], ['>']]
  | additiveOperator, t => t ∈ [['+'], ['-']]
  | multiplicativeOperator, t => t ∈ [['*'], ['/'], ['%']]
  | unaryOperator, t => t ∈ [['-'], ['!']]
  | nilLiteral, t => t = ['n', 'i', 'l']
  | booleanLiteral, t => t ∈ [['t', 'r', 'u', 'e'], ['f', 'a', 'l', 's', 'e']]
  | numericLiteral, t => ∃ token : Token, token.IsNumeral ∧ token.Valid ∧ t = token.text
  | _, _ => True

end Rule

/-- The node and all nodes below it are as the grammar has them. -/
inductive Node.Shaped : Node → Prop
  | mk {r : Rule} {span : Span} {text : List Char} {children : List Node} :
    r.Admits (children.map Node.rule) → r.Spells text → (∀ c ∈ children, Shaped c) →
    Shaped ⟨r, span, text, children⟩

/-! ## What one rule adds -/

namespace Pattern

/-- A rule that is not silent leaves one node. -/
theorem Bears.rules (h : (rule r).Bears n owner ns ls) (hr : r.kind ≠ .silent) :
    ns.map Node.rule = [r] := by
  cases hkind : r.kind with
  | silent => exact absurd hkind hr
  | atomic =>
    obtain ⟨us, -, rfl, -⟩ := h.up.atomic hkind
    rfl
  | normal =>
    obtain ⟨chars, ms, rfl, -⟩ := h.up.node (.inl hkind)
    rfl
  | compound =>
    obtain ⟨chars, ms, rfl, -⟩ := h.up.node (.inr hkind)
    rfl

theorem Bears.rules_expression (h : (rule .expression).Bears n owner ns ls) :
    ∃ q ∈ Rule.expressions, ns.map Node.rule = [q] := by
  obtain h | h := (h.up.silent rfl).alt
  · exact ⟨.assignmentExpression, by decide, h.rules (by decide)⟩
  · exact ⟨.logicalOrExpression, by decide, h.rules (by decide)⟩

theorem Bears.rules_literal (h : (rule .literal).Bears n owner ns ls) :
    ∃ q ∈ Rule.literals, ns.map Node.rule = [q] := by
  obtain h | h := (h.up.silent rfl).alt
  · exact ⟨.nilLiteral, by decide, h.rules (by decide)⟩
  obtain h | h := h.alt
  · exact ⟨.booleanLiteral, by decide, h.rules (by decide)⟩
  obtain h | h := h.alt
  · exact ⟨.numericLiteral, by decide, h.rules (by decide)⟩
  · exact ⟨.stringLiteral, by decide, h.rules (by decide)⟩

theorem Bears.nodes_text {t : List Char} (h : (Pattern.text t).Bears n owner ns ls) : ns = [] :=
  h.text.1

theorem Bears.rules_primary (h : (rule .primaryExpression).Bears n owner ns ls) :
    ∃ q ∈ Rule.primaries, ns.map Node.rule = [q] := by
  obtain h | h := (h.up.silent rfl).alt
  · exact ⟨.functionExpression, by decide, h.rules (by decide)⟩
  obtain h | h := h.alt
  · obtain ⟨q, hq, hrules⟩ := h.rules_literal
    exact ⟨q, by simp [Rule.primaries, hq], hrules⟩
  obtain h | h := h.alt
  · exact ⟨.identifier, by decide, h.rules (by decide)⟩
  · obtain ⟨_, _, _, _, hopen, hrest, rfl, -⟩ := Bears.seq h
    obtain ⟨_, _, _, _, hexpr, hclose, rfl, -⟩ := Bears.seq hrest
    obtain ⟨q, hq, hrules⟩ := hexpr.rules_expression
    refine ⟨q, by simp [Rule.primaries, hq], ?_⟩
    simp [hopen.nodes_text, hclose.nodes_text, hrules]

theorem Bears.rules_items {item : Pattern} {items : List (List Node × List Lexeme)}
    {P : Rule → Prop} (hitem : ∀ {ns ls}, item.Bears n owner ns ls → ∀ m ∈ ns, P m.rule)
    (h : ∀ i ∈ items, item.Bears n owner i.1 i.2) :
    ∀ q ∈ (items.flatMap Prod.fst).map Node.rule, P q := by
  intro q hq
  obtain ⟨m, hm, rfl⟩ := List.mem_map.1 hq
  obtain ⟨i, hi, hm⟩ := List.mem_flatMap.1 hm
  exact hitem (h i hi) m hm

theorem Bears.rules_statements {items : List (List Node × List Lexeme)}
    (h : ∀ i ∈ items, (rule .statement).Bears n owner i.1 i.2) :
    ∀ q ∈ (items.flatMap Prod.fst).map Node.rule, q = .statement := by
  refine Bears.rules_items (fun h m hm => ?_) h
  have hmem : m.rule ∈ _ := List.mem_map_of_mem hm
  rw [h.rules (by decide)] at hmem
  exact List.mem_singleton.1 hmem

theorem Bears.chain {operand operator : Rule} (hoperand : operand.kind ≠ .silent)
    (hoperator : operator.kind ≠ .silent)
    (h : (Pattern.separated (rule operand) (rule operator)).Bears n owner ns ls) :
    Rule.Chain operand operator (ns.map Node.rule) := by
  obtain ⟨ns₁, ls₁, items, hfirst, hitems, rfl, -⟩ := h.separated
  refine ⟨(items.flatMap Prod.fst).map Node.rule, ?_, ?_⟩
  · rw [List.map_append, hfirst.rules hoperand]
    rfl
  · clear h
    induction items with
    | nil => trivial
    | cons i items ih =>
      obtain ⟨hi, hitems⟩ := List.forall_mem_cons.1 hitems
      obtain ⟨ns₂, ns₃, _, _, hop, hright, hns, -⟩ := Bears.seq hi
      rw [List.flatMap_cons, List.map_append, hns, List.map_append, hop.rules hoperator,
        hright.rules hoperand]
      exact ⟨rfl, rfl, ih hitems⟩

theorem Bears.nodes_of_isTexts {p : Pattern} (h : p.Bears n owner ns ls) (hp : p.isTexts = true) :
    ns = [] := by
  obtain ⟨ts, hts, rfl, -⟩ := h
  obtain ⟨t, rfl⟩ := hts.terminal_of_isTexts hp
  rfl

end Pattern

namespace Rule

theorem admits_script (h : (body .script).Bears n .script ms ls) :
    Admits .script (ms.map Node.rule) := by
  obtain ⟨_, _, _, _, hempty, hrest, rfl, -⟩ := Bears.seq h
  obtain ⟨_, _, _, _, hmany, hend, rfl, -⟩ := Bears.seq hrest
  obtain ⟨rfl, -⟩ := hempty.empty
  obtain ⟨items, hitems, rfl, -⟩ := hmany.many
  refine ⟨_, ?_, Bears.rules_statements hitems⟩
  rw [List.nil_append, List.map_append, hend.rules (by decide)]

theorem admits_statement (h : (body .statement).Bears n .statement ms ls) :
    Admits .statement (ms.map Node.rule) := by
  obtain h | h := h.alt
  · exact ⟨_, by decide, h.rules (by decide)⟩
  obtain h | h := h.alt
  · exact ⟨_, by decide, h.rules (by decide)⟩
  obtain h | h := h.alt
  · exact ⟨_, by decide, h.rules (by decide)⟩
  obtain h | h := h.alt
  · exact ⟨_, by decide, h.rules (by decide)⟩
  obtain h | h := h.alt
  · exact ⟨_, by decide, h.rules (by decide)⟩
  obtain h | h := h.alt
  · exact ⟨_, by decide, h.rules (by decide)⟩
  · exact ⟨_, by decide, h.rules (by decide)⟩

theorem admits_functionDeclaration
    (h : (body .functionDeclaration).Bears n .functionDeclaration ms ls) :
    Admits .functionDeclaration (ms.map Node.rule) := by
  obtain ⟨_, hrest, -⟩ := Bears.opener h fun _ => rfl
  obtain ⟨_, _, _, _, hname, hrest', rfl, -⟩ := Bears.seq hrest
  obtain ⟨_, _, _, _, hparams, hbody, rfl, -⟩ := Bears.seq hrest'
  simp [Admits, hname.rules (by decide), hparams.rules (by decide), hbody.rules (by decide)]

theorem admits_functionExpression
    (h : (body .functionExpression).Bears n .functionExpression ms ls) :
    Admits .functionExpression (ms.map Node.rule) := by
  obtain ⟨_, hrest, -⟩ := Bears.opener h fun _ => rfl
  obtain ⟨_, _, _, _, hparams, hbody, rfl, -⟩ := Bears.seq hrest
  simp [Admits, hparams.rules (by decide), hbody.rules (by decide)]

theorem admits_variableDeclaration
    (h : (body .variableDeclaration).Bears n .variableDeclaration ms ls) :
    Admits .variableDeclaration (ms.map Node.rule) := by
  obtain ⟨_, hrest, -⟩ := Bears.opener h fun _ => rfl
  obtain ⟨_, _, _, _, hname, hrest', rfl, -⟩ := Bears.seq hrest
  obtain ⟨_, _, _, _, hinit, hsemi, rfl, -⟩ := Bears.seq hrest'
  obtain rfl := hsemi.nodes_text
  obtain hinit | ⟨rfl, -⟩ := hinit.optional
  · obtain ⟨_, _, _, _, hsign, hvalue, rfl, -⟩ := Bears.seq hinit
    obtain rfl := hsign.nodes_text
    obtain ⟨q, hq, hrules⟩ := hvalue.rules_expression
    exact .inr ⟨q, hq, by simp [hname.rules (by decide), hrules]⟩
  · exact .inl (by simp [hname.rules (by decide)])

theorem admits_printStatement (h : (body .printStatement).Bears n .printStatement ms ls) :
    Admits .printStatement (ms.map Node.rule) := by
  obtain ⟨_, hrest, -⟩ := Bears.opener h fun _ => rfl
  obtain ⟨_, _, _, _, hvalue, hsemi, rfl, -⟩ := Bears.seq hrest
  obtain rfl := hsemi.nodes_text
  obtain ⟨q, hq, hrules⟩ := hvalue.rules_expression
  exact ⟨q, hq, by simpa using hrules⟩

theorem admits_returnStatement (h : (body .returnStatement).Bears n .returnStatement ms ls) :
    Admits .returnStatement (ms.map Node.rule) := by
  obtain ⟨_, hrest, -⟩ := Bears.opener h fun _ => rfl
  obtain ⟨_, _, _, _, hvalue, hsemi, rfl, -⟩ := Bears.seq hrest
  obtain rfl := hsemi.nodes_text
  obtain hvalue | ⟨rfl, -⟩ := hvalue.optional
  · obtain ⟨q, hq, hrules⟩ := hvalue.rules_expression
    exact .inr ⟨q, hq, by simpa using hrules⟩
  · exact .inl rfl

theorem admits_ifStatement (h : (body .ifStatement).Bears n .ifStatement ms ls) :
    Admits .ifStatement (ms.map Node.rule) := by
  obtain ⟨_, hrest, -⟩ := Bears.opener h fun _ => rfl
  obtain ⟨_, _, _, _, hopen, hrest₁, rfl, -⟩ := Bears.seq hrest
  obtain ⟨_, _, _, _, htest, hrest₂, rfl, -⟩ := Bears.seq hrest₁
  obtain ⟨_, _, _, _, hclose, hrest₃, rfl, -⟩ := Bears.seq hrest₂
  obtain ⟨_, _, _, _, hthen, helse, rfl, -⟩ := Bears.seq hrest₃
  obtain rfl := hopen.nodes_text
  obtain rfl := hclose.nodes_text
  obtain ⟨q, hq, hrules⟩ := htest.rules_expression
  refine ⟨q, hq, ?_⟩
  obtain helse | ⟨rfl, -⟩ := helse.optional
  · have hopener : (phrase (opener .kwElse ['e', 'l', 's', 'e'] ++ []) (rule .statement)).Bears n
        .ifStatement _ _ := helse
    obtain ⟨_, hother, -⟩ := hopener.opener fun _ => rfl
    have hother' := Bears.rules (r := .statement) hother (by decide)
    exact .inr (by simp [hrules, hthen.rules (by decide), hother'])
  · exact .inl (by simp [hrules, hthen.rules (by decide)])

theorem admits_expressionStatement
    (h : (body .expressionStatement).Bears n .expressionStatement ms ls) :
    Admits .expressionStatement (ms.map Node.rule) := by
  obtain ⟨_, _, _, _, hvalue, hsemi, rfl, -⟩ := Bears.seq h
  obtain rfl := hsemi.nodes_text
  obtain ⟨q, hq, hrules⟩ := hvalue.rules_expression
  exact ⟨q, hq, by simpa using hrules⟩

theorem admits_formalParameters (h : (body .formalParameters).Bears n .formalParameters ms ls) :
    Admits .formalParameters (ms.map Node.rule) := by
  obtain ⟨items, hitems, rfl, -⟩ := Bears.parenthesized h fun _ => rfl
  refine Bears.rules_items (fun h m hm => ?_) hitems
  have hmem : m.rule ∈ _ := List.mem_map_of_mem hm
  rw [h.rules (by decide)] at hmem
  exact List.mem_singleton.1 hmem

theorem admits_arguments (h : (body .arguments).Bears n .arguments ms ls) :
    Admits .arguments (ms.map Node.rule) := by
  obtain ⟨items, hitems, rfl, -⟩ := Bears.parenthesized h fun _ => rfl
  refine Bears.rules_items (fun h m hm => ?_) hitems
  obtain ⟨q, hq, hrules⟩ := h.rules_expression
  have hmem : m.rule ∈ _ := List.mem_map_of_mem hm
  rw [hrules, List.mem_singleton] at hmem
  exact hmem ▸ hq

theorem admits_assignmentExpression
    (h : (body .assignmentExpression).Bears n .assignmentExpression ms ls) :
    Admits .assignmentExpression (ms.map Node.rule) := by
  obtain ⟨_, _, _, _, htarget, hrest, rfl, -⟩ := Bears.seq h
  obtain ⟨_, _, _, _, hahead, hrest', rfl, -⟩ := Bears.seq hrest
  obtain ⟨_, _, _, _, hsign, hvalue, rfl, -⟩ := Bears.seq hrest'
  obtain ⟨rfl, -⟩ := hahead.ahead
  obtain rfl := hsign.nodes_text
  obtain ⟨q, hq, hrules⟩ := hvalue.rules_expression
  exact ⟨q, hq, by simp [htarget.rules (by decide), hrules]⟩

theorem admits_unaryExpression (h : (body .unaryExpression).Bears n .unaryExpression ms ls) :
    Admits .unaryExpression (ms.map Node.rule) := by
  obtain hunary | hcall := h.alt
  · obtain ⟨_, _, _, _, hop, hoperand, rfl, -⟩ := Bears.seq hunary
    have hoperand' := Bears.rules (r := .unaryExpression) hoperand (by decide)
    exact .inl (by simp [hop.rules (by decide), hoperand'])
  · exact .inr (hcall.rules (by decide))

theorem admits_callExpression (h : (body .callExpression).Bears n .callExpression ms ls) :
    Admits .callExpression (ms.map Node.rule) := by
  obtain ⟨_, _, _, _, hcallee, hcalls, rfl, -⟩ := Bears.seq h
  obtain ⟨q, hq, hrules⟩ := Bears.rules_primary hcallee
  obtain ⟨items, hitems, rfl, -⟩ := hcalls.many
  refine ⟨q, hq, (items.flatMap Prod.fst).map Node.rule, by simp [hrules], ?_⟩
  refine Bears.rules_items (fun h m hm => ?_) hitems
  have hmem : m.rule ∈ _ := List.mem_map_of_mem hm
  rw [Bears.rules h (by decide)] at hmem
  exact List.mem_singleton.1 hmem

theorem admits_stringLiteral (h : (body .stringLiteral).Bears n .stringLiteral ms ls) :
    Admits .stringLiteral (ms.map Node.rule) := by
  obtain ⟨_, _, _, _, hopen, hrest, rfl, -⟩ := Bears.seq h
  obtain ⟨_, _, _, _, hcharacters, hclose, rfl, -⟩ := Bears.seq hrest
  obtain rfl := hopen.nodes_text
  obtain rfl := hclose.nodes_text
  rw [Admits, List.nil_append, List.append_nil]
  exact hcharacters.rules (by decide)

/-- The nodes below a node are those that its rule admits. -/
theorem admits_of_bears (hr : r.kind = .normal ∨ r.kind = .compound) (h : r.body.Bears n r ms ls) :
    r.Admits (ms.map Node.rule) := by
  cases r with
  | script => exact admits_script h
  | statement => exact admits_statement h
  | functionDeclaration => exact admits_functionDeclaration h
  | functionExpression => exact admits_functionExpression h
  | variableDeclaration => exact admits_variableDeclaration h
  | printStatement => exact admits_printStatement h
  | returnStatement => exact admits_returnStatement h
  | ifStatement => exact admits_ifStatement h
  | blockStatement | functionBody =>
    obtain ⟨items, hitems, rfl, -⟩ := Bears.braced h fun _ => rfl
    exact Bears.rules_statements hitems
  | expressionStatement => exact admits_expressionStatement h
  | formalParameters => exact admits_formalParameters h
  | arguments => exact admits_arguments h
  | assignmentExpression => exact admits_assignmentExpression h
  | logicalOrExpression | logicalAndExpression | equalityExpression | relationalExpression
  | additiveExpression | multiplicativeExpression => exact Bears.chain (by decide) (by decide) h
  | unaryExpression => exact admits_unaryExpression h
  | callExpression => exact admits_callExpression h
  | stringLiteral => exact admits_stringLiteral h
  | equalityOperator | relationalOperator | additiveOperator | multiplicativeOperator
  | unaryOperator =>
    obtain rfl := h.nodes_of_isTexts rfl
    rfl
  | endOfInput =>
    obtain ⟨rfl, -⟩ := Bears.finish h
    rfl
  | _ => rcases hr with hr | hr <;> cases hr

end Rule

/-! ## Texts of operators and literals -/

/-- The texts that a choice is between. -/
def Pattern.texts : Pattern → List (List Char)
  | text t => [t]
  | alt p q => p.texts ++ q.texts
  | _ => []

namespace Pattern

variable {p : Pattern} {ts : List Tree} {f : Char → Bool}

theorem Derives.terminal_mem_texts (h : p.Derives n ts) (hp : p.isTexts = true) :
    ∃ t ∈ p.texts, ts = [.terminal t] := by
  induction h with
  | text t => exact ⟨t, List.mem_singleton_self t, rfl⟩
  | altLeft _ ih =>
    rw [isTexts, Bool.and_eq_true] at hp
    obtain ⟨t, ht, rfl⟩ := ih hp.1
    exact ⟨t, List.mem_append_left _ ht, rfl⟩
  | altRight _ ih =>
    rw [isTexts, Bool.and_eq_true] at hp
    obtain ⟨t, ht, rfl⟩ := ih hp.2
    exact ⟨t, List.mem_append_right _ ht, rfl⟩
  | _ => cases hp

theorem Derives.char_text (h : (Pattern.char f).Derives n ts) :
    ∃ c, f c = true ∧ ts = [.terminal [c]] := by
  cases h with
  | char hc => exact ⟨_, hc, rfl⟩

theorem Derives.many_text (h : (Pattern.many .none (Pattern.char f)).Derives n ts) :
    ∀ c ∈ textAll ts, f c = true := by
  generalize hq : Pattern.many .none (Pattern.char f) = q at h
  induction h with
  | manyNone => simp
  | manyOne hp =>
    cases hq
    obtain ⟨c, hc, rfl⟩ := hp.char_text
    simpa using hc
  | manyMore _ _ hcs hp ih =>
    cases hq
    obtain ⟨c, hc, rfl⟩ := hp.char_text
    obtain rfl : _ = [] := hcs
    simpa [Gap.tree, or_imp, forall_and, hc] using ih rfl
  | _ => cases hq

theorem Derives.atLeastOne_text (h : (Pattern.atLeastOne (Pattern.char f)).Derives n ts) :
    textAll ts ≠ [] ∧ ∀ c ∈ textAll ts, f c = true := by
  obtain ⟨us, cs, vs, hfirst, rfl, hmore, rfl⟩ := derives_seq.1 h
  obtain ⟨c, hc, rfl⟩ := hfirst.char_text
  simpa [Gap.tree, hc] using hmore.many_text

theorem Derives.numeral_text (h : (Rule.body .numericLiteral).Derives n ts) :
    ∃ token : Token, token.IsNumeral ∧ token.Valid ∧ textAll ts = token.text := by
  obtain ⟨us, cs, vs, hwhole, rfl, hrest, rfl⟩ := derives_seq.1 h
  have hdigits := hwhole.atLeastOne_text
  obtain hrest | hrest := derives_alt.1 hrest
  · obtain ⟨ps, cs, fs, hpoint, rfl, hfraction, rfl⟩ := derives_seq.1 hrest
    obtain rfl := derives_text.1 hpoint
    refine ⟨.decimal (textAll us) (textAll fs), trivial, ⟨hdigits, ?_⟩,
      by simp [Gap.tree, Token.text]⟩
    exact Derives.atLeastOne_text hfraction
  · cases hrest
    exact ⟨.integer (textAll us), trivial, hdigits, by simp [Gap.tree, Token.text]⟩

end Pattern

/-- A node holds a text that its rule spells. -/
theorem Rule.spells_of_node {us : List Tree} (hr : r.kind = .normal ∨ r.kind = .compound)
    (h : r.body.Derives n us) : r.Spells (yieldAll us).text := by
  cases r with
  | equalityOperator | relationalOperator | additiveOperator | multiplicativeOperator
  | unaryOperator =>
    obtain ⟨t, ht, rfl⟩ := h.terminal_mem_texts rfl
    rw [yieldAll, Tree.yield, yieldAll, Yield.append_empty]
    exact ht
  | orOperator | andOperator | nilLiteral | booleanLiteral | numericLiteral =>
    rcases hr with hr | hr <;> cases hr
  | _ => trivial

theorem Rule.spells_of_atomic {us : List Tree} (hr : r.kind = .atomic) (h : r.body.Derives n us) :
    r.Spells (textAll us) := by
  cases r with
  | orOperator | andOperator | nilLiteral =>
    obtain rfl := derives_text.1 h.wholeWord
    simp [Spells]
  | booleanLiteral =>
    obtain ⟨t, ht, rfl⟩ := Derives.terminal_mem_texts h.wholeWord rfl
    rw [Tree.textAll_cons, Tree.text_terminal, Tree.textAll_nil, List.append_nil]
    exact ht
  | numericLiteral => exact h.numeral_text
  | equalityOperator | relationalOperator | additiveOperator | multiplicativeOperator
  | unaryOperator => cases hr
  | _ => trivial

theorem Rule.admits_of_atomic (hr : r.kind = .atomic) : r.Admits [] := by
  cases r with
  | kwLet | kwFn | kwReturn | kwPrint | kwIf | kwElse | keyword | identifier | assignOperator
  | orOperator | andOperator | nilLiteral | booleanLiteral | numericLiteral
  | stringCharacters => rfl
  | _ => cases hr

/-! ## Trees -/

theorem Node.map_rule_eraseAll (ns : List Node) :
    (Node.eraseAll ns).map Node.rule = ns.map Node.rule := by
  induction ns with
  | nil => rfl
  | cons n ns ih =>
    rw [Node.eraseAll, List.map_cons, ih]
    cases n
    rfl

namespace Tree

variable {ts us : List Tree} {pos : Nat}

theorem nodes_append (ts us : List Tree) (pos : Nat) : (locateFrom [] [] pos (ts ++ us)).nodes =
    (locateFrom [] [] pos ts).nodes ++
      (locateFrom [] [] (pos + utf8Size (textAll ts)) us).nodes := by
  rw [locateFrom_append, locateFrom_eq us, stop_locateFrom]
  simp

theorem nodes_gap (cs : List Char) (pos : Nat) : (locateFrom [] [] pos (Gap.tree cs)).nodes = [] :=
  (spans_gap cs pos).1

theorem nodes_terminal (t : List Char) (pos : Nat) :
    (locateFrom [] [] pos [terminal t]).nodes = [] :=
  (spans_terminal t pos).1

theorem nodes_node (r : Rule) (ts : List Tree) (pos : Nat) :
    (locateFrom [] [] pos [node r ts]).nodes =
      [⟨r, ⟨pos, pos + utf8Size (textAll ts)⟩, (yieldAll ts).text,
        (locateFrom [] [] pos ts).nodes⟩] := by
  have htext : (locateFrom [] [] pos ts).text = (yieldAll ts).text := by
    simpa using (locateFrom_yield ts [] [] pos).2
  rw [locateFrom, locateFrom, stop_locateFrom, htext]
  rfl

theorem map_rule_nodes (ts : List Tree) (pos : Nat) :
    (locateFrom [] [] pos ts).nodes.map Node.rule = (yieldAll ts).nodes.map Node.rule := by
  have herase : Node.eraseAll (locateFrom [] [] pos ts).nodes = (yieldAll ts).nodes := by
    simpa [Node.eraseAll] using (locateFrom_yield ts [] [] pos).1
  rw [← herase, Node.map_rule_eraseAll]

end Tree

/-- Every node of a derived forest is shaped, wherever the forest stands. -/
theorem Pattern.Derives.shaped {p : Pattern} {ts : List Tree} (h : p.Derives n ts) (pos : Nat) :
    ∀ m ∈ (locateFrom [] [] pos ts).nodes, m.Shaped := by
  induction h generalizing pos with
  | empty | finish | manyNone | ahead | notAhead => simp [Tree.locateFrom]
  | text | char => simp [Tree.nodes_terminal]
  | seq _ _ _ ihp ihq =>
    simp only [Tree.nodes_append, Tree.nodes_gap, List.nil_append]
    exact List.forall_mem_append.2 ⟨ihp _, ihq _⟩
  | altLeft _ ih | altRight _ ih | manyOne _ ih => exact ih pos
  | manyMore _ _ _ _ ihm ihp =>
    simp only [Tree.nodes_append, Tree.nodes_gap, List.nil_append]
    exact List.forall_mem_append.2 ⟨ihm _, ihp _⟩
  | @rule n r us h ih =>
    have hnode (hr : r.kind = .normal ∨ r.kind = .compound) :
        ∀ m ∈ (locateFrom [] [] pos (r.wrap us)).nodes, m.Shaped := by
      rw [r.wrap_node hr, Tree.nodes_node, List.forall_mem_singleton]
      refine .mk ?_ (r.spells_of_node hr h) (ih pos)
      rw [Tree.map_rule_nodes]
      exact Rule.admits_of_bears hr ⟨us, h, rfl, rfl⟩
    cases hkind : r.kind with
    | silent =>
      rw [r.wrap_silent hkind]
      exact ih pos
    | normal => exact hnode (.inl hkind)
    | compound => exact hnode (.inr hkind)
    | atomic =>
      -- what a rule of this kind matches is one text, and leaves no nodes below
      rw [r.wrap_atomic hkind, Tree.nodes_node, Tree.nodes_terminal, List.forall_mem_singleton]
      refine .mk (r.admits_of_atomic hkind) ?_ (by simp)
      simpa [yieldAll, Tree.yield] using r.spells_of_atomic hkind h

end Scoped.Grammar
