import Scoped.Proofs.Tokens

/-!
# The grammar on tokens

What each rule of the grammar for statements and expressions reads, in terms of tokens. Every
lemma opens one rule by one level : the tokens that the rule itself matches become `Lexes`, and the
rules inside it stay as they are. In this form a proof about programs never looks at a character,
except to see that a rule reads nothing (`Rule.fails_of_rejects`).
-/

namespace Scoped.Grammar

open Layout (skip)
open Pattern

variable {cs cs' mid rest rest' : List Char} {ns ms : List Node}

/-! ## Reserved words and symbols -/

namespace Token

abbrev kwLet : Token := .word ['l', 'e', 't']

abbrev kwFn : Token := .word ['f', 'n']

abbrev kwReturn : Token := .word ['r', 'e', 't', 'u', 'r', 'n']

abbrev kwPrint : Token := .word ['p', 'r', 'i', 'n', 't']

abbrev kwIf : Token := .word ['i', 'f']

abbrev kwElse : Token := .word ['e', 'l', 's', 'e']

abbrev kwNil : Token := .word ['n', 'i', 'l']

abbrev kwTrue : Token := .word ['t', 'r', 'u', 'e']

abbrev kwFalse : Token := .word ['f', 'a', 'l', 's', 'e']

theorem valid_true : kwTrue.Valid := valid_keyword (by decide)

theorem valid_false : kwFalse.Valid := valid_keyword (by decide)

end Token

namespace Rule

theorem isWord_let : kwLet.IsWord ['l', 'e', 't'] :=
  ⟨rfl, rfl, Token.valid_keyword (by decide)⟩

theorem isWord_fn : kwFn.IsWord ['f', 'n'] := ⟨rfl, rfl, Token.valid_keyword (by decide)⟩

theorem isWord_return : kwReturn.IsWord ['r', 'e', 't', 'u', 'r', 'n'] :=
  ⟨rfl, rfl, Token.valid_keyword (by decide)⟩

theorem isWord_print : kwPrint.IsWord ['p', 'r', 'i', 'n', 't'] :=
  ⟨rfl, rfl, Token.valid_keyword (by decide)⟩

theorem isWord_if : kwIf.IsWord ['i', 'f'] := ⟨rfl, rfl, Token.valid_keyword (by decide)⟩

theorem isWord_else : kwElse.IsWord ['e', 'l', 's', 'e'] :=
  ⟨rfl, rfl, Token.valid_keyword (by decide)⟩

theorem isWord_nil : nilLiteral.IsWord ['n', 'i', 'l'] :=
  ⟨rfl, rfl, Token.valid_keyword (by decide)⟩

end Rule

theorem reads_symbol (s : Symbol) (hs : s.extension? = none) :
    (text s.chars).Reads cs ns rest ↔ ns = [] ∧ Lexes [.symbol s] cs rest :=
  ⟨lexes_of_reads_symbol hs, fun ⟨hns, h⟩ => hns ▸ h.reads_symbol⟩

theorem reads_openParen :
    (text ['(']).Reads cs ns rest ↔ ns = [] ∧ Lexes [.symbol .openParen] cs rest :=
  reads_symbol .openParen rfl

theorem reads_closeParen :
    (text [')']).Reads cs ns rest ↔ ns = [] ∧ Lexes [.symbol .closeParen] cs rest :=
  reads_symbol .closeParen rfl

theorem reads_openBrace :
    (text ['\x7b']).Reads cs ns rest ↔ ns = [] ∧ Lexes [.symbol .openBrace] cs rest :=
  reads_symbol .openBrace rfl

theorem reads_closeBrace :
    (text ['\x7d']).Reads cs ns rest ↔ ns = [] ∧ Lexes [.symbol .closeBrace] cs rest :=
  reads_symbol .closeBrace rfl

theorem reads_comma :
    (text [',']).Reads cs ns rest ↔ ns = [] ∧ Lexes [.symbol .comma] cs rest :=
  reads_symbol .comma rfl

theorem reads_semicolon :
    (text [';']).Reads cs ns rest ↔ ns = [] ∧ Lexes [.symbol .semicolon] cs rest :=
  reads_symbol .semicolon rfl

/-- A text does not start with another character than its first. -/
theorem fails_text_of_head {c : Char} {t : List Char} (h : (skip cs).head? ≠ some c) :
    (text (c :: t)).Fails cs := by
  refine fails_text fun mid heq => h ?_
  rw [heq]
  rfl

/-! ## Sequences in brackets -/

/-- Items with a separator between every two. -/
theorem reads_separated {item separator : Pattern}
    (hc : (phrase [separator] item).consumes = true) :
    (separated item separator).Reads cs ns rest ↔ ∃ ns₁ ns₂ mid, item.Reads cs ns₁ mid ∧
      (phrase [separator] item).Repeats mid ns₂ rest ∧ ns = ns₁ ++ ns₂ := by
  rw [separated, phrase_cons, phrase_nil, reads_seq]
  simp only [reads_many hc]

/-- A list in parentheses. -/
theorem reads_parenthesized {item : Pattern} : (parenthesized item).Reads cs ns rest ↔
    ∃ mid mid', Lexes [.symbol .openParen] cs mid ∧
      (optional (separated item (text [',']))).Reads mid ns mid' ∧
      Lexes [.symbol .closeParen] mid' rest := by
  simp only [parenthesized, phrase_cons, phrase_nil, reads_seq, reads_openParen, reads_closeParen]
  constructor
  · rintro ⟨_, _, mid, ⟨rfl, ho⟩, ⟨ns, _, mid', h, ⟨rfl, hc⟩, rfl⟩, rfl⟩
    exact ⟨mid, mid', ho, by simpa using h, hc⟩
  · rintro ⟨mid, mid', ho, h, hc⟩
    exact ⟨[], ns, mid, ⟨rfl, ho⟩, ⟨ns, [], mid', h, ⟨rfl, hc⟩, by simp⟩, rfl⟩

/-- A block. -/
theorem reads_braced : braced.Reads cs ns rest ↔
    ∃ mid mid', Lexes [.symbol .openBrace] cs mid ∧ (rule .statement).Repeats mid ns mid' ∧
      Lexes [.symbol .closeBrace] mid' rest := by
  simp only [braced, phrase_cons, phrase_nil, reads_seq, reads_openBrace, reads_closeBrace,
    reads_many (p := rule .statement) rfl]
  constructor
  · rintro ⟨_, _, mid, ⟨rfl, ho⟩, ⟨ns, _, mid', h, ⟨rfl, hc⟩, rfl⟩, rfl⟩
    exact ⟨mid, mid', ho, by simpa using h, hc⟩
  · rintro ⟨mid, mid', ho, h, hc⟩
    exact ⟨[], ns, mid, ⟨rfl, ho⟩, ⟨ns, [], mid', h, ⟨rfl, hc⟩, by simp⟩, rfl⟩

/-! ## Expressions -/

/-- The rule for the expressions that bind at least so strongly. -/
def Rule.ofStrength : (strength : Nat) → Rule
  | 0 => expression
  | 1 => logicalOrExpression
  | 2 => logicalAndExpression
  | 3 => equalityExpression
  | 4 => relationalExpression
  | 5 => additiveExpression
  | 6 => multiplicativeExpression
  | 7 => unaryExpression
  | 8 => callExpression
  | _ => primaryExpression

theorem reads_expression : (rule .expression).Reads cs ns rest ↔
    (rule .assignmentExpression).Reads cs ns rest ∨
      (rule .assignmentExpression).Fails cs ∧ (rule .logicalOrExpression).Reads cs ns rest :=
  (reads_silent rfl).trans reads_alt

theorem fails_assignOperator :
    (rule .assignOperator).Fails cs ↔ ∀ rest, ¬Lexes [.symbol .assign] cs rest := by
  rw [fails_rule]
  show (Pattern.word [text ['=']] (notAhead (text ['=']))).parse (skip cs) = none ↔ _
  rw [Pattern.word, List.foldr_cons, List.foldr_nil, parse_tight]
  constructor
  · rintro h rest ⟨mid, hcs, hends, -⟩
    have hnone : (text ['=']).parse mid = none := by
      rw [Pattern.parse, stripText_singleton (hends '=' rfl)]
      rfl
    have hsome : (text ['=']).parse (skip cs) = some (.ofText ['='], mid) := parse_text hcs
    rw [hsome, Option.bind_some, Pattern.parse, hnone] at h
    cases h
  · intro h
    cases hp : (text ['=']).parse (skip cs) with
    | none => rfl
    | some m =>
      obtain ⟨y, mid⟩ := m
      obtain ⟨hcs, rfl⟩ := parse_text_eq_some hp
      have hmid : mid.head? = some '=' := by
        by_contra hne
        refine h mid ⟨mid, hcs, ?_, rfl⟩
        rintro c ⟨⟩
        exact hne
      obtain ⟨mid', rfl⟩ : ∃ mid', mid = '=' :: mid' := by
        cases mid <;> simp_all
      rfl

/-- A name, the sign of assignment and a value. -/
theorem reads_assignment : (Rule.body .assignmentExpression).Reads cs ns rest ↔
    ∃ w ms mid, IsName w ∧ Lexes [.word w, .symbol .assign] cs mid ∧
      (rule .expression).Reads mid ms rest ∧ ns = ⟨.identifier, .nowhere, w, []⟩ :: ms := by
  simp only [Rule.body, phrase_cons, phrase_nil, reads_seq, reads_identifier, reads_ahead]
  constructor
  · rintro ⟨_, _, mid, ⟨w, hw, hlex, rfl⟩, ⟨_, _, mid', ⟨hassign, rfl, hmid⟩,
      ⟨_, ms, mid'', htext, h, rfl⟩, rfl⟩, rfl⟩
    rw [fails_assignOperator] at hassign
    push Not at hassign
    obtain ⟨rest', hlex'⟩ := hassign
    obtain ⟨rfl, hmid''⟩ := hlex'.reads_symbol.unique (htext.congr hmid.symm rfl)
    exact ⟨w, ms, mid'', hw, lexes_cons.2 ⟨mid, hlex, hlex'.congr rfl hmid''⟩, h, rfl⟩
  · rintro ⟨w, ms, mid, hw, hlex, h, rfl⟩
    obtain ⟨mid', hw', hassign⟩ := lexes_cons.1 hlex
    refine ⟨_, ms, mid', ⟨w, hw, hw', rfl⟩, ⟨[], ms, mid', ⟨fun hf => ?_, rfl, rfl⟩,
      ⟨[], ms, mid, hassign.reads_symbol, h, rfl⟩, rfl⟩, rfl⟩
    exact fails_assignOperator.1 hf mid hassign

/-- Where no value can start, as after the first of two equality signs, none is read. -/
theorem ends_assign {r : Rule} (hr : r.rejects Rule.topRank (some '=') = true)
    (h : (rule r).Reads mid ns rest) : mid.head? ≠ some '=' := by
  intro hhead
  obtain ⟨mid', rfl⟩ : ∃ mid', mid = '=' :: mid' := by cases mid <;> simp_all
  refine h.not_fails (Rule.fails_of_rejects ?_ hr)
  rw [Layout.skip_cons (by decide) fun h => absurd h (by decide)]
  rfl

/-- The value of a declaration. -/
theorem reads_initializer : (phrase [text ['=']] (rule .expression)).Reads cs ns rest ↔
    ∃ mid, Lexes [.symbol .assign] cs mid ∧ (rule .expression).Reads mid ns rest := by
  rw [phrase_cons, phrase_nil, reads_seq]
  constructor
  · rintro ⟨_, ns, mid, htext, h, rfl⟩
    obtain ⟨rfl, mid', hcs, hmid⟩ := reads_text.1 htext
    have h' : (rule .expression).Reads mid' ns rest := h.congr hmid.symm rfl
    refine ⟨mid', ⟨mid', hcs, ?_, rfl⟩, h'⟩
    rintro c ⟨⟩
    exact ends_assign (by decide) h'
  · rintro ⟨mid, hlex, h⟩
    exact ⟨[], ns, mid, hlex.reads_symbol, h, rfl⟩

/-- The operands of one operator or more of the same strength. -/
theorem reads_chain {k : Nat} (hk : 1 ≤ k) (hk' : k ≤ 6) :
    (Rule.ofStrength k).body.Reads cs ns rest ↔
      ∃ ns₁ ns₂ mid, (rule (.ofStrength (k + 1))).Reads cs ns₁ mid ∧
        (phrase [rule (.operator k)] (rule (.ofStrength (k + 1)))).Repeats mid ns₂ rest ∧
        ns = ns₁ ++ ns₂ := by
  interval_cases k <;> exact reads_separated rfl

theorem UnaryOp.takes (op : UnaryOp) :
    Rule.unaryOperator.Takes op.token ⟨.unaryOperator, .nowhere, op.token.text, []⟩ := by
  intro rest _
  rw [Rule.parse_eq]
  cases op <;> rfl

/-- An operator before its operand. -/
theorem reads_unary :
    (phrase [rule .unaryOperator] (rule .unaryExpression)).Reads cs ns rest ↔
      ∃ (op : UnaryOp) (ms : List Node) (mid : List Char), Lexes [op.token] cs mid ∧
        (rule .unaryExpression).Reads mid ms rest ∧
        ns = ⟨.unaryOperator, .nowhere, op.token.text, []⟩ :: ms := by
  rw [phrase_cons, phrase_nil, reads_seq]
  constructor
  · rintro ⟨_, ms, mid, hop, h, rfl⟩
    have htexts : IsTexts (Rule.body .unaryOperator) [['-'], ['!']] :=
      (isTexts_text _).alt (isTexts_text _)
    obtain ⟨t, mid', hfind, hcs, hmid, rfl⟩ := reads_texts rfl htexts hop
    have h' : (rule .unaryExpression).Reads mid' ms rest := h.congr hmid.symm rfl
    have hmem := List.mem_of_find?_eq_some hfind
    simp only [List.mem_cons, List.not_mem_nil, or_false] at hmem
    rcases hmem with rfl | rfl
    · refine ⟨.minus, ms, mid', lexes_symbol hcs ?_ rfl, h', rfl⟩
      rintro c ⟨⟩
    · refine ⟨.not, ms, mid', lexes_symbol hcs ?_ rfl, h', rfl⟩
      rintro c ⟨⟩
      exact ends_assign (by decide) h'
  · rintro ⟨op, ms, mid, hop, h, rfl⟩
    exact ⟨_, ms, mid, (UnaryOp.takes op).reads hop, h, rfl⟩

theorem reads_unaryExpression : (Rule.body .unaryExpression).Reads cs ns rest ↔
    (phrase [rule .unaryOperator] (rule .unaryExpression)).Reads cs ns rest ∨
      (phrase [rule .unaryOperator] (rule .unaryExpression)).Fails cs ∧
        (rule .callExpression).Reads cs ns rest :=
  reads_alt

/-- A function and its argument lists. -/
theorem reads_call : (Rule.body .callExpression).Reads cs ns rest ↔
    ∃ ns₁ ns₂ mid, (rule .primaryExpression).Reads cs ns₁ mid ∧
      (rule .arguments).Repeats mid ns₂ rest ∧ ns = ns₁ ++ ns₂ := by
  simp only [Rule.body, phrase_cons, phrase_nil, reads_seq,
    reads_many (p := rule .arguments) rfl]

/-- An expression in parentheses. -/
theorem reads_group : (phrase [text ['('], rule .expression] (text [')'])).Reads cs ns rest ↔
    ∃ mid mid', Lexes [.symbol .openParen] cs mid ∧ (rule .expression).Reads mid ns mid' ∧
      Lexes [.symbol .closeParen] mid' rest := by
  simp only [phrase_cons, phrase_nil, reads_seq, reads_openParen, reads_closeParen]
  constructor
  · rintro ⟨_, _, mid, ⟨rfl, ho⟩, ⟨ns, _, mid', h, ⟨rfl, hc⟩, rfl⟩, rfl⟩
    exact ⟨mid, mid', ho, by simpa using h, hc⟩
  · rintro ⟨mid, mid', ho, h, hc⟩
    exact ⟨[], ns, mid, ⟨rfl, ho⟩, ⟨ns, [], mid', h, ⟨rfl, hc⟩, by simp⟩, rfl⟩

/-! ## Literals -/

/-- A token that is a literal. -/
def Token.IsLiteral : Token → Prop
  | word w => w ∈ [['n', 'i', 'l'], ['t', 'r', 'u', 'e'], ['f', 'a', 'l', 's', 'e']]
  | symbol _ => False
  | _ => True

/-- The node of a literal. -/
def Token.literalNode : Token → Node
  | word w =>
    ⟨if w = ['n', 'i', 'l'] then .nilLiteral else .booleanLiteral, .nowhere, w, []⟩
  | quoted raw =>
    ⟨.stringLiteral, .nowhere, ['"', '"'], [⟨.stringCharacters, .nowhere, raw, []⟩]⟩
  | t => ⟨.numericLiteral, .nowhere, t.text, []⟩

theorem Token.literalNode_numeral {t : Token} (h : t.IsNumeral) :
    t.literalNode = ⟨.numericLiteral, .nowhere, t.text, []⟩ := by
  cases t with
  | integer | decimal => rfl
  | word | quoted | symbol => exact h.elim

theorem fails_nilLiteral {t : Token} (h : Lexes [t] cs rest) (ht : t.Valid) (hne : t ≠ .kwNil) :
    (rule .nilLiteral).Fails cs :=
  Rule.isWord_nil.fails.2 fun heq => hne ((h.word_eq_iff ht Rule.isWord_nil.valid).1 heq)

theorem fails_booleanLiteral_of_lexes {t : Token} (h : Lexes [t] cs rest) (ht : t.Valid)
    (hne : ∀ w, t ≠ .word w) : (rule .booleanLiteral).Fails cs := by
  rw [fails_booleanLiteral]
  intro hmem
  have hvalid : (Token.word (word (skip cs))).Valid := by
    simp only [List.mem_cons, List.not_mem_nil, or_false] at hmem
    rcases hmem with heq | heq <;> rw [heq]
    · exact Token.valid_true
    · exact Token.valid_false
  exact hne _ ((h.word_eq_iff ht hvalid).1 rfl)

/-- The rule that takes a literal, and that none before it does. -/
theorem Token.IsLiteral.takes {t : Token} (h : t.IsLiteral) (ht : t.Valid)
    (hlex : Lexes [t] cs rest) : Rule.nilLiteral.Takes t t.literalNode ∨
      (rule .nilLiteral).Fails cs ∧ Rule.booleanLiteral.Takes t t.literalNode ∨
      (rule .nilLiteral).Fails cs ∧ (rule .booleanLiteral).Fails cs ∧
        Rule.numericLiteral.Takes t t.literalNode ∨
      (rule .nilLiteral).Fails cs ∧ (rule .booleanLiteral).Fails cs ∧
        (rule .numericLiteral).Fails cs ∧ Rule.stringLiteral.Takes t t.literalNode := by
  have hnumeral : t.IsNumeral → (rule .nilLiteral).Fails cs ∧ (rule .booleanLiteral).Fails cs ∧
      Rule.numericLiteral.Takes t t.literalNode := by
    intro hn
    have hne : ∀ w, t ≠ .word w := by
      rintro w rfl
      exact hn
    rw [Token.literalNode_numeral hn]
    exact ⟨fails_nilLiteral hlex ht (hne _), fails_booleanLiteral_of_lexes hlex ht hne,
      takes_numericLiteral hn ht⟩
  cases t with
  | word w =>
    simp only [Token.IsLiteral, List.mem_cons, List.not_mem_nil, or_false] at h
    rcases h with rfl | rfl | rfl
    · exact .inl Rule.isWord_nil.takes
    · exact .inr (.inl ⟨fails_nilLiteral hlex ht (by simp), takes_booleanLiteral (by simp)⟩)
    · exact .inr (.inl ⟨fails_nilLiteral hlex ht (by simp), takes_booleanLiteral (by simp)⟩)
  | integer | decimal => exact .inr (.inr (.inl (hnumeral trivial)))
  | quoted raw =>
    have hhead : (skip cs).head? = some '"' := hlex.head? ht
    exact .inr (.inr (.inr ⟨fails_nilLiteral hlex ht (by simp),
      fails_booleanLiteral_of_lexes hlex ht (by simp), Rule.fails_of_rejects hhead (by decide),
      takes_stringLiteral ht⟩))
  | symbol => exact h.elim

/-- A literal is one token. -/
theorem reads_literal : (rule .literal).Reads cs ns rest ↔
    ∃ t : Token, t.IsLiteral ∧ t.Valid ∧ Lexes [t] cs rest ∧ ns = [t.literalNode] := by
  rw [reads_silent rfl, Rule.body, choice_cons, choice_cons, choice_cons, choice_nil]
  constructor
  · intro h
    rw [reads_alt, reads_alt, reads_alt] at h
    obtain h | ⟨-, h | ⟨-, h | ⟨-, h⟩⟩⟩ := h
    · obtain ⟨hlex, rfl⟩ := Rule.isWord_nil.reads.1 h
      exact ⟨.kwNil, by simp [Token.IsLiteral], Rule.isWord_nil.valid, hlex, rfl⟩
    · obtain ⟨w, hw, hlex, rfl⟩ := reads_booleanLiteral.1 h
      simp only [List.mem_cons, List.not_mem_nil, or_false] at hw
      rcases hw with rfl | rfl
      · exact ⟨.kwTrue, by simp [Token.IsLiteral], Token.valid_true, hlex, rfl⟩
      · exact ⟨.kwFalse, by simp [Token.IsLiteral], Token.valid_false, hlex, rfl⟩
    · obtain ⟨t, hnumeral, hvalid, hlex, rfl⟩ := reads_numericLiteral.1 h
      refine ⟨t, ?_, hvalid, hlex, by rw [Token.literalNode_numeral hnumeral]⟩
      cases t with
      | integer | decimal => trivial
      | word | quoted | symbol => exact hnumeral.elim
    · obtain ⟨raw, hvalid, hlex, rfl⟩ := reads_stringLiteral.1 h
      exact ⟨.quoted raw, trivial, hvalid, hlex, rfl⟩
  · rintro ⟨t, hliteral, hvalid, hlex, rfl⟩
    obtain h | ⟨hnil, h⟩ | ⟨hnil, hbool, h⟩ | ⟨hnil, hbool, hnum, h⟩ :=
      hliteral.takes hvalid hlex
    · exact .alt_left (h.reads hlex)
    · exact .alt_right hnil (.alt_left (h.reads hlex))
    · exact .alt_right hnil (.alt_right hbool (.alt_left (h.reads hlex)))
    · exact .alt_right hnil (.alt_right hbool (.alt_right hnum (h.reads hlex)))

/-! ## Functions -/

theorem reads_functionExpression : (Rule.body .functionExpression).Reads cs ns rest ↔
    ∃ ns₁ ns₂ mid mid', Lexes [.kwFn] cs mid ∧ (rule .formalParameters).Reads mid ns₁ mid' ∧
      (rule .functionBody).Reads mid' ns₂ rest ∧ ns = ns₁ ++ ns₂ := by
  simp only [Rule.body, reads_opener Rule.isWord_fn, phrase_cons, phrase_nil, reads_seq]
  constructor
  · rintro ⟨mid, hfn, ns₁, ns₂, mid', hp, hb, rfl⟩
    exact ⟨ns₁, ns₂, mid, mid', hfn, hp, hb, rfl⟩
  · rintro ⟨ns₁, ns₂, mid, mid', hfn, hp, hb, rfl⟩
    exact ⟨mid, hfn, ns₁, ns₂, mid', hp, hb, rfl⟩

theorem reads_functionDeclaration : (Rule.body .functionDeclaration).Reads cs ns rest ↔
    ∃ w ns₁ ns₂ mid mid', IsName w ∧ Lexes [.kwFn, .word w] cs mid ∧
      (rule .formalParameters).Reads mid ns₁ mid' ∧ (rule .functionBody).Reads mid' ns₂ rest ∧
      ns = ⟨.identifier, .nowhere, w, []⟩ :: (ns₁ ++ ns₂) := by
  simp only [Rule.body, reads_opener Rule.isWord_fn, phrase_cons, phrase_nil, reads_seq,
    reads_identifier]
  constructor
  · rintro ⟨mid, hfn, _, _, mid', ⟨w, hw, hlex, rfl⟩, ⟨ns₁, ns₂, mid'', hp, hb, rfl⟩, rfl⟩
    exact ⟨w, ns₁, ns₂, mid', mid'', hw, lexes_cons.2 ⟨mid, hfn, hlex⟩, hp, hb, rfl⟩
  · rintro ⟨w, ns₁, ns₂, mid, mid', hw, hlex, hp, hb, rfl⟩
    obtain ⟨mid'', hfn, hlex⟩ := lexes_cons.1 hlex
    exact ⟨mid'', hfn, _, _, mid, ⟨w, hw, hlex, rfl⟩, ⟨ns₁, ns₂, mid', hp, hb, rfl⟩, rfl⟩

/-! ## Statements -/

theorem reads_variableDeclaration : (Rule.body .variableDeclaration).Reads cs ns rest ↔
    ∃ w ms mid mid', IsName w ∧ Lexes [.kwLet, .word w] cs mid ∧
      (optional (phrase [text ['=']] (rule .expression))).Reads mid ms mid' ∧
      Lexes [.symbol .semicolon] mid' rest ∧ ns = ⟨.identifier, .nowhere, w, []⟩ :: ms := by
  simp only [Rule.body, reads_opener Rule.isWord_let, phrase_cons, phrase_nil, reads_seq,
    reads_identifier, reads_semicolon]
  constructor
  · rintro ⟨mid, hlet, _, _, mid', ⟨w, hw, hlex, rfl⟩, ⟨ms, _, mid'', h, ⟨rfl, hsemi⟩, rfl⟩, rfl⟩
    exact ⟨w, ms, mid', mid'', hw, lexes_cons.2 ⟨mid, hlet, hlex⟩, h, hsemi, by simp⟩
  · rintro ⟨w, ms, mid, mid', hw, hlex, h, hsemi, rfl⟩
    obtain ⟨mid'', hlet, hlex⟩ := lexes_cons.1 hlex
    exact ⟨mid'', hlet, _, _, mid, ⟨w, hw, hlex, rfl⟩, ⟨ms, [], mid', h, ⟨rfl, hsemi⟩, rfl⟩,
      by simp⟩

/-- What stands between a reserved word and a semicolon. -/
theorem reads_simple {r : Rule} {k : List Char} (hr : r.IsWord k) {p : Pattern} :
    (phrase (opener r k ++ [p]) (text [';'])).Reads cs ns rest ↔
      ∃ mid mid', Lexes [.word k] cs mid ∧ p.Reads mid ns mid' ∧
        Lexes [.symbol .semicolon] mid' rest := by
  simp only [reads_opener hr, phrase_cons, phrase_nil, reads_seq, reads_semicolon]
  constructor
  · rintro ⟨mid, hk, ns, _, mid', h, ⟨rfl, hsemi⟩, rfl⟩
    exact ⟨mid, mid', hk, by simpa using h, hsemi⟩
  · rintro ⟨mid, mid', hk, h, hsemi⟩
    exact ⟨mid, hk, ns, [], mid', h, ⟨rfl, hsemi⟩, by simp⟩

theorem reads_expressionStatement : (Rule.body .expressionStatement).Reads cs ns rest ↔
    ∃ mid, (rule .expression).Reads cs ns mid ∧ Lexes [.symbol .semicolon] mid rest := by
  simp only [Rule.body, phrase_cons, phrase_nil, reads_seq, reads_semicolon]
  constructor
  · rintro ⟨ns, _, mid, h, ⟨rfl, hsemi⟩, rfl⟩
    exact ⟨mid, by simpa using h, hsemi⟩
  · rintro ⟨mid, h, hsemi⟩
    exact ⟨ns, [], mid, h, ⟨rfl, hsemi⟩, by simp⟩

/-- The other branch of a conditional. -/
theorem reads_alternative :
    (phrase (opener .kwElse ['e', 'l', 's', 'e']) (rule .statement)).Reads cs ns rest ↔
      ∃ mid, Lexes [.kwElse] cs mid ∧ (rule .statement).Reads mid ns rest := by
  rw [← List.append_nil (opener _ _), reads_opener Rule.isWord_else, phrase_nil]

theorem reads_ifStatement : (Rule.body .ifStatement).Reads cs ns rest ↔
    ∃ ns₁ ns₂ ns₃ mid₁ mid₂ mid₃ mid₄, Lexes [.kwIf, .symbol .openParen] cs mid₁ ∧
      (rule .expression).Reads mid₁ ns₁ mid₂ ∧ Lexes [.symbol .closeParen] mid₂ mid₃ ∧
      (rule .statement).Reads mid₃ ns₂ mid₄ ∧
      (optional (phrase (opener .kwElse ['e', 'l', 's', 'e']) (rule .statement))).Reads mid₄ ns₃
        rest ∧ ns = ns₁ ++ (ns₂ ++ ns₃) := by
  rw [Rule.body, reads_opener Rule.isWord_if]
  simp only [phrase_cons, phrase_nil, reads_seq, reads_openParen, reads_closeParen]
  constructor
  · rintro ⟨mid, hif, _, _, mid₁, ⟨rfl, ho⟩, ⟨ns₁, _, mid₂, htest, ⟨_, _, mid₃, ⟨rfl, hc⟩,
      ⟨ns₂, ns₃, mid₄, hthen, helse, rfl⟩, rfl⟩, rfl⟩, rfl⟩
    exact ⟨ns₁, ns₂, ns₃, mid₁, mid₂, mid₃, mid₄, lexes_cons.2 ⟨mid, hif, ho⟩, htest, hc, hthen,
      helse, rfl⟩
  · rintro ⟨ns₁, ns₂, ns₃, mid₁, mid₂, mid₃, mid₄, hlex, htest, hc, hthen, helse, rfl⟩
    obtain ⟨mid, hif, ho⟩ := lexes_cons.1 hlex
    exact ⟨mid, hif, [], _, mid₁, ⟨rfl, ho⟩, ⟨ns₁, _, mid₂, htest, ⟨[], _, mid₃, ⟨rfl, hc⟩,
      ⟨ns₂, ns₃, mid₄, hthen, helse, rfl⟩, rfl⟩, rfl⟩, rfl⟩

end Scoped.Grammar
