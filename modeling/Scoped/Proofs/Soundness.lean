import Scoped.Proofs.Scripts
import Scoped.Proofs.Spelling

/-!
# What is read is spelled

Whatever the grammar reads in a text, and a program can be made of, is denoted by tokens that
the text starts with. The induction is on what is left of the text (`Sound`) : the rules for one
strength and the next stand at the same place, so they follow from each other, and all other
rules read something first.

An alternative belongs to the last conditional before it that has none. So where an open
statement has been read, no alternative can be read after it, which is the second part of
`Stmt.Sound`.
-/

namespace Scoped

open Grammar Grammar.Pattern
open Grammar.Layout (skip)

variable {cs mid mid' rest : List Char} {ts us : List Token} {ns ms : List Node} {k : Nat}

/-- What the rule for strength `k` reads is one expression, and it is spelled. -/
def Expr.Sound (k : Nat) (cs : List Char) : Prop :=
  ∀ ns rest, (rule (.ofStrength k)).Reads cs ns rest → ∃ n, ns = [n] ∧
    ∀ e, Expr.ofNode n = .ok e → ∃ ts, e.Spelled k ts ∧ Lexes ts cs rest

/-- An alternative of a conditional. -/
abbrev Grammar.Pattern.alternative : Pattern :=
  phrase (opener .kwElse ['e', 'l', 's', 'e']) (rule .statement)

/-- What is read as a statement is one, and it is spelled. No alternative follows it that would
belong to it. -/
def Stmt.Sound (cs : List Char) : Prop :=
  ∀ ns rest, (rule .statement).Reads cs ns rest → ∃ n, ns = [n] ∧
    ∀ s, Stmt.ofNode n = .ok s → ∃ ts, s.Spelled ts ∧ Lexes ts cs rest ∧
      (s.isOpen = true → alternative.Fails rest)

/-- Whatever is read at a place is spelled. -/
structure Sound (cs : List Char) : Prop where
  expr : ∀ k ≤ 9, Expr.Sound k cs
  stmt : Stmt.Sound cs

/-- Whatever is read after a place is spelled. -/
def SoundAfter (cs : List Char) : Prop :=
  ∀ cs', (skip cs').length < (skip cs).length → Sound cs'

theorem SoundAfter.mono (h : SoundAfter cs) (hle : (skip mid).length ≤ (skip cs).length) :
    SoundAfter mid :=
  fun cs' hlt => h cs' (Nat.lt_of_lt_of_le hlt hle)

theorem SoundAfter.of_reads {p : Pattern} (h : SoundAfter cs) (hr : p.Reads cs ns mid)
    (hp : p.consumes = true) : Sound mid ∧ SoundAfter mid :=
  ⟨h mid (hr.length_lt hp), h.mono (Nat.le_of_lt (hr.length_lt hp))⟩

theorem SoundAfter.of_lexes {t : Token} (h : SoundAfter cs) (ht : Lexes [t] cs mid)
    (hvalid : t.Valid) : Sound mid ∧ SoundAfter mid :=
  ⟨h mid (ht.length_lt hvalid), h.mono (Nat.le_of_lt (ht.length_lt hvalid))⟩

/-! ## Operators between operands -/

theorem Expr.spelled_chain (hk : 1 ≤ k) (hk' : k ≤ 6)
    (hrepeats : (phrase [rule (.operator k)] (rule (.ofStrength (k + 1)))).Repeats mid ns rest)
    (ih : SoundAfter mid) {first e : Expr} (hfirst : first.Spelled k ts) (hlex : Lexes ts cs mid)
    {owner : Rule} {span : Span}
    (hok : Expr.chainOfNodes (Connective.reader k) owner span first ns = .ok e) :
    ∃ us, e.Spelled k us ∧ Lexes us cs rest := by
  have hconsumes : (phrase [rule (.operator k)] (rule (.ofStrength (k + 1)))).consumes = true := by
    interval_cases k <;> rfl
  induction hrepeats generalizing first ts with
  | nil _ hmid =>
    cases hok
    exact ⟨ts, hfirst, hlex.congr rfl hmid⟩
  | cons hreads hmore ihr =>
    obtain ⟨ns₁, ns₂, m, hop, hitem, rfl⟩ := reads_seq.1 hreads
    obtain ⟨c, rfl, hc, rfl⟩ := reads_operator hk hk' hop
    obtain ⟨hsound, hafter⟩ := ih.of_lexes hc c.valid_token
    obtain ⟨n, rfl, hn⟩ := hsound.expr (c.strength + 1) (by omega) _ _ hitem
    rw [List.singleton_append, List.cons_append, List.singleton_append,
      Expr.chainOfNodes_cons c.reader_node] at hok
    obtain ⟨right, hright, hok⟩ := bind_eq_ok.1 hok
    obtain ⟨us, hus, hlex'⟩ := hn right hright
    have hend := ih.mono (Nat.le_of_lt (hreads.length_lt hconsumes))
    exact ihr hend (.joined (Nat.le_refl _) hfirst hus)
      (lexes_append_cons.2 ⟨_, m, hlex, hc, hlex'⟩) hok

theorem Expr.sound_chain (hk : 1 ≤ k) (hk' : k ≤ 6) (h : Expr.Sound (k + 1) cs)
    (ih : SoundAfter cs) : Expr.Sound k cs := by
  intro ns rest hreads
  have hkind : (Rule.ofStrength k).kind = .normal := by interval_cases k <;> rfl
  have hconsumes : (rule (.ofStrength (k + 1))).consumes = true := by interval_cases k <;> rfl
  obtain ⟨chars, ms, rfl, hbody⟩ := reads_rule hkind hreads
  obtain ⟨ns₁, ns₂, mid, hfirst, hrepeats, rfl⟩ := (reads_chain hk hk').1 hbody
  obtain ⟨n, rfl, hn⟩ := h _ _ hfirst
  refine ⟨_, rfl, fun e hok => ?_⟩
  rw [List.singleton_append, Expr.ofNode_chain hk hk'] at hok
  obtain ⟨first, hfirst', hok⟩ := bind_eq_ok.1 hok
  obtain ⟨ts, hts, hlex⟩ := hn first hfirst'
  exact Expr.spelled_chain hk hk' hrepeats (ih.of_reads hfirst hconsumes).2
    (hts.weaken (Nat.le_succ k)) hlex hok

/-! ## Lists in parentheses -/

theorem Expr.spelledMore_of_repeats
    (h : (phrase [text [',']] (rule .expression)).Repeats cs ns rest) (ih : SoundAfter cs)
    {es : List Expr} (hok : Expr.allOfNodes ns = .ok es) :
    ∃ ts, Expr.SpelledMore es ts ∧ Lexes ts cs rest := by
  induction h generalizing es with
  | nil _ hcs =>
    cases hok
    exact ⟨[], .nil, hcs⟩
  | cons hreads hmore ihr =>
    obtain ⟨ns₁, ns₂, m, hcomma, hexpr, rfl⟩ := reads_seq.1 hreads
    obtain ⟨rfl, hsep⟩ := reads_comma.1 hcomma
    obtain ⟨n, rfl, hn⟩ := (ih.of_lexes hsep trivial).1.expr 0 (by omega) _ _ hexpr
    obtain ⟨e, he, hok⟩ := bind_eq_ok.1 hok
    obtain ⟨es', hes', hok⟩ := bind_eq_ok.1 hok
    cases hok
    obtain ⟨ts, hts, hlex⟩ := hn e he
    obtain ⟨us, hus, hlex'⟩ := ihr (ih.of_reads hreads rfl).2 hes'
    exact ⟨_, .cons hts hus, lexes_cons.2 ⟨m, hsep, lexes_append.2 ⟨_, hlex, hlex'⟩⟩⟩

theorem Expr.spelledAll_of_reads (h : (rule .arguments).Reads cs ns rest) (ih : SoundAfter cs) :
    ∃ chars ms, ns = [⟨.arguments, .nowhere, chars, ms⟩] ∧
      ∀ es, Expr.allOfNodes ms = .ok es → ∃ ts, Expr.SpelledAll es ts ∧
        Lexes (.symbol .openParen :: (ts ++ [.symbol .closeParen])) cs rest := by
  obtain ⟨chars, ms, rfl, hbody⟩ := reads_rule rfl h
  obtain ⟨mid, mid', ho, hlist, hc⟩ := reads_parenthesized.1 hbody
  refine ⟨chars, ms, rfl, fun es hok => ?_⟩
  obtain ⟨hsound, hafter⟩ := ih.of_lexes ho trivial
  obtain hlist | ⟨-, rfl, hmid⟩ := reads_optional.1 hlist
  · obtain ⟨ns₁, ns₂, m, hfirst, hmore, rfl⟩ := (reads_separated rfl).1 hlist
    obtain ⟨n, rfl, hn⟩ := hsound.expr 0 (by omega) _ _ hfirst
    obtain ⟨e, he, hok⟩ := bind_eq_ok.1 hok
    obtain ⟨es', hes', hok⟩ := bind_eq_ok.1 hok
    cases hok
    obtain ⟨ts, hts, hlex⟩ := hn e he
    obtain ⟨us, hus, hlex'⟩ :=
      Expr.spelledMore_of_repeats hmore (hafter.of_reads hfirst rfl).2 hes'
    exact ⟨_, .cons hts hus, lexes_cons.2 ⟨mid, ho, lexes_append.2
      ⟨mid', lexes_append.2 ⟨m, hlex, hlex'⟩, hc⟩⟩⟩
  · cases hok
    exact ⟨[], .nil, lexes_cons.2 ⟨mid, ho, hc.congr hmid.symm rfl⟩⟩

theorem Ident.wellFormed_ofNode {w : List Char} (hw : IsName w) :
    (Ident.ofNode ⟨.identifier, .nowhere, w, []⟩).WellFormed := by
  rw [Ident.WellFormed, Ident.ofNode, String.toList_ofList]
  exact hw

theorem Ident.token_ofNode (w : List Char) :
    (Ident.ofNode ⟨.identifier, .nowhere, w, []⟩).token = .word w := by
  rw [Ident.token, Ident.ofNode, String.toList_ofList]

theorem Ident.lexes_of_repeats
    (h : (phrase [text [',']] (rule .identifier)).Repeats cs ns rest) :
    (∀ x ∈ ns.map Ident.ofNode, x.WellFormed) ∧
      Lexes (Ident.moreTokens (ns.map Ident.ofNode)) cs rest := by
  induction h with
  | nil _ hcs => exact ⟨by simp, hcs⟩
  | cons hreads _ ih =>
    obtain ⟨ns₁, ns₂, m, hcomma, hname, rfl⟩ := reads_seq.1 hreads
    obtain ⟨rfl, hsep⟩ := reads_comma.1 hcomma
    obtain ⟨w, hw, hlex, rfl⟩ := reads_identifier.1 hname
    obtain ⟨hwf, hlex'⟩ := ih
    refine ⟨List.forall_mem_cons.2 ⟨Ident.wellFormed_ofNode hw, hwf⟩, ?_⟩
    exact lexes_cons.2 ⟨m, hsep, lexes_cons.2 ⟨_, by rw [Ident.token_ofNode]; exact hlex, hlex'⟩⟩

theorem Ident.lexes_of_reads (h : (rule .formalParameters).Reads cs ns rest) :
    ∃ chars ms, ns = [⟨.formalParameters, .nowhere, chars, ms⟩] ∧
      (∀ x ∈ ms.map Ident.ofNode, x.WellFormed) ∧ Lexes (.symbol .openParen ::
        (Ident.listTokens (ms.map Ident.ofNode) ++ [.symbol .closeParen])) cs rest := by
  obtain ⟨chars, ms, rfl, hbody⟩ := reads_rule rfl h
  obtain ⟨mid, mid', ho, hlist, hc⟩ := reads_parenthesized.1 hbody
  refine ⟨chars, ms, rfl, ?_⟩
  obtain hlist | ⟨-, rfl, hmid⟩ := reads_optional.1 hlist
  · obtain ⟨ns₁, ns₂, m, hfirst, hmore, rfl⟩ := (reads_separated rfl).1 hlist
    obtain ⟨w, hw, hlex, rfl⟩ := reads_identifier.1 hfirst
    obtain ⟨hwf, hlex'⟩ := Ident.lexes_of_repeats hmore
    refine ⟨List.forall_mem_cons.2 ⟨Ident.wellFormed_ofNode hw, hwf⟩, lexes_cons.2 ⟨mid, ho,
      lexes_append.2 ⟨mid', lexes_cons.2 ⟨m, ?_, hlex'⟩, hc⟩⟩⟩
    rw [Ident.token_ofNode]
    exact hlex
  · exact ⟨by simp, lexes_cons.2 ⟨mid, ho, hc.congr hmid.symm rfl⟩⟩

/-! ## Blocks and functions -/

theorem Stmt.spelledAll_of_repeats (h : (rule .statement).Repeats cs ns rest) (hs : Stmt.Sound cs)
    (ih : SoundAfter cs) {ss : List Stmt} (hok : Stmt.allOfNodes ns = .ok ss) :
    ∃ ts, Stmt.SpelledAll ss ts ∧ Lexes ts cs rest := by
  induction h generalizing ss with
  | nil _ hcs =>
    cases hok
    exact ⟨[], .nil, hcs⟩
  | cons hreads hmore ihr =>
    obtain ⟨n, rfl, hn⟩ := hs _ _ hreads
    rw [List.singleton_append, Stmt.allOfNodes_cons (rule_of_reads_statement hreads)] at hok
    obtain ⟨s, hs', hok⟩ := bind_eq_ok.1 hok
    obtain ⟨ss', hss', hok⟩ := bind_eq_ok.1 hok
    cases hok
    obtain ⟨ts, hts, hlex, -⟩ := hn s hs'
    obtain ⟨hsound, hafter⟩ := ih.of_reads hreads rfl
    obtain ⟨us, hus, hlex'⟩ := ihr hsound.stmt hafter hss'
    exact ⟨_, .cons hts hus, lexes_append.2 ⟨_, hlex, hlex'⟩⟩

theorem Stmt.spelledAll_of_reads (h : braced.Reads cs ns rest) (ih : SoundAfter cs)
    {ss : List Stmt} (hok : Stmt.allOfNodes ns = .ok ss) : ∃ ts, Stmt.SpelledAll ss ts ∧
      Lexes (.symbol .openBrace :: (ts ++ [.symbol .closeBrace])) cs rest := by
  obtain ⟨mid, mid', ho, hbody, hc⟩ := reads_braced.1 h
  obtain ⟨hsound, hafter⟩ := ih.of_lexes ho trivial
  obtain ⟨ts, hts, hlex⟩ := Stmt.spelledAll_of_repeats hbody hsound.stmt hafter hok
  exact ⟨ts, hts, lexes_cons.2 ⟨mid, ho, lexes_append.2 ⟨mid', hlex, hc⟩⟩⟩

/-- Parameters and a body that were read are spelled, whatever stands before them. -/
theorem FunctionDef.spelled_of_reads (hps : (rule .formalParameters).Reads cs ns mid)
    (hb : (rule .functionBody).Reads mid ms rest) (ih : SoundAfter cs) :
    ∃ ps b, ns = [ps] ∧ ms = [b] ∧ ∀ owner span parts d,
      FunctionDef.ofNodes owner span parts [ps, b] = .ok d →
        d.id = parts.id ∧ ∃ ts, d.Spelled ts ∧ Lexes ts cs rest := by
  obtain ⟨chars, params, rfl, hwf, hlex⟩ := Ident.lexes_of_reads hps
  obtain ⟨chars', body, rfl, hbody⟩ := reads_rule rfl hb
  have hbraced : ∀ {ss}, Stmt.allOfNodes body = .ok ss → ∃ ts, Stmt.SpelledAll ss ts ∧
      Lexes (.symbol .openParen :: (Ident.listTokens (params.map Ident.ofNode) ++
        .symbol .closeParen :: .symbol .openBrace :: (ts ++ [.symbol .closeBrace]))) cs rest := by
    intro ss hok
    obtain ⟨ts, hts, hlex'⟩ :=
      Stmt.spelledAll_of_reads hbody (ih.of_reads hps rfl).2 hok
    obtain ⟨m, ho, hlex⟩ := lexes_cons.1 hlex
    obtain ⟨m', hnames, hc⟩ := lexes_append.1 hlex
    exact ⟨ts, hts, lexes_cons.2 ⟨m, ho, lexes_append_cons.2 ⟨m', mid, hnames, hc, hlex'⟩⟩⟩
  refine ⟨_, _, rfl, rfl, fun owner span parts d hok => ?_⟩
  rw [FunctionDef.ofNodes_pair] at hok
  obtain ⟨ss, hss, hok⟩ := bind_eq_ok.1 hok
  cases hok
  obtain ⟨ts, hts, hlex'⟩ := hbraced hss
  exact ⟨rfl, _, .mk hwf hts, hlex'⟩

/-! ## Expressions -/

theorem Expr.sound_primary (ih : SoundAfter cs) : Expr.Sound 9 cs := by
  intro ns rest hreads
  have hchoice : (Rule.body .primaryExpression).Reads cs ns rest := (reads_silent rfl).1 hreads
  rw [Rule.body, choice_cons, choice_cons, choice_cons, choice_nil, reads_alt, reads_alt,
    reads_alt] at hchoice
  obtain h | ⟨-, h | ⟨-, h | ⟨-, h⟩⟩⟩ := hchoice
  · obtain ⟨chars, ms, rfl, hbody⟩ := reads_rule rfl h
    obtain ⟨ns₁, ns₂, mid, mid', hfn, hps, hb, rfl⟩ := reads_functionExpression.1 hbody
    obtain ⟨ps, b, rfl, rfl, hd⟩ := FunctionDef.spelled_of_reads hps hb
      (ih.of_lexes hfn Rule.isWord_fn.valid).2
    refine ⟨_, rfl, fun e hok => ?_⟩
    obtain ⟨d, hd', hok⟩ := bind_eq_ok.1 hok
    cases hok
    obtain ⟨hid, ts, hts, hlex⟩ := hd _ _ _ d hd'
    exact ⟨_, .function hid hts, lexes_cons.2 ⟨mid, hfn, hlex⟩⟩
  · obtain ⟨t, hliteral, hvalid, hlex, rfl⟩ := reads_literal.1 h
    refine ⟨_, rfl, fun e hok => ?_⟩
    rw [Expr.ofNode_literal t.rule_literalNode] at hok
    obtain ⟨l, hl, hok⟩ := bind_eq_ok.1 hok
    cases hok
    exact ⟨[t], .literal ((Literal.ofNode_literalNode hliteral hvalid).1 hl), hlex⟩
  · obtain ⟨w, hw, hlex, rfl⟩ := reads_identifier.1 h
    refine ⟨_, rfl, fun e hok => ?_⟩
    cases hok
    exact ⟨_, .ident (Ident.wellFormed_ofNode hw), by rw [Ident.token_ofNode]; exact hlex⟩
  · obtain ⟨mid, mid', ho, hexpr, hc⟩ := reads_group.1 h
    obtain ⟨n, rfl, hn⟩ := (ih.of_lexes ho trivial).1.expr 0 (by omega) _ _ hexpr
    refine ⟨n, rfl, fun e hok => ?_⟩
    obtain ⟨ts, hts, hlex⟩ := hn e hok
    exact ⟨_, .group hts, lexes_cons.2 ⟨mid, ho, lexes_append.2 ⟨mid', hlex, hc⟩⟩⟩

theorem Expr.spelled_calls (hrepeats : (rule .arguments).Repeats mid ns rest)
    (ih : SoundAfter mid) {callee e : Expr} (hcallee : callee.Spelled 8 ts)
    (hlex : Lexes ts cs mid) (hok : Expr.callsOfNodes 0 callee ns = .ok e) :
    ∃ us, e.Spelled 8 us ∧ Lexes us cs rest := by
  induction hrepeats generalizing callee ts with
  | nil _ hmid =>
    cases hok
    exact ⟨ts, hcallee, hlex.congr rfl hmid⟩
  | cons hreads hmore ihr =>
    obtain ⟨chars, args, rfl, hargs⟩ := Expr.spelledAll_of_reads hreads ih
    obtain ⟨es, hes, hok⟩ := bind_eq_ok.1 hok
    obtain ⟨us, hus, hlex'⟩ := hargs es hes
    exact ihr (ih.of_reads hreads rfl).2 (.call (Nat.le_refl 8) hcallee hus)
      (lexes_append.2 ⟨_, hlex, hlex'⟩) hok

theorem Expr.sound_call (h : Expr.Sound 9 cs) (ih : SoundAfter cs) : Expr.Sound 8 cs := by
  intro ns rest hreads
  obtain ⟨chars, ms, rfl, hbody⟩ := reads_rule (r := .callExpression) rfl hreads
  obtain ⟨ns₁, ns₂, mid, hfirst, hrepeats, rfl⟩ := reads_call.1 hbody
  obtain ⟨n, rfl, hn⟩ := h _ _ hfirst
  refine ⟨_, rfl, fun e hok => ?_⟩
  obtain ⟨callee, hcallee, hok⟩ := bind_eq_ok.1 hok
  obtain ⟨ts, hts, hlex⟩ := hn callee hcallee
  exact Expr.spelled_calls hrepeats (ih.of_reads hfirst rfl).2 (hts.weaken (by omega)) hlex hok

theorem Expr.sound_unary (h : Expr.Sound 8 cs) (ih : SoundAfter cs) : Expr.Sound 7 cs := by
  intro ns rest hreads
  obtain ⟨chars, ms, rfl, hbody⟩ := reads_rule (r := .unaryExpression) rfl hreads
  obtain hunary | ⟨-, hcall⟩ := reads_unaryExpression.1 hbody
  · obtain ⟨op, ms, mid, hop, hoperand, rfl⟩ := reads_unary.1 hunary
    obtain ⟨n, rfl, hn⟩ := (ih.of_lexes hop op.valid_token).1.expr 7 (by omega) _ _ hoperand
    refine ⟨_, rfl, fun e hok => ?_⟩
    rw [Expr.ofNode_unary rfl op.ofNode_node] at hok
    obtain ⟨operand, hoperand', hok⟩ := bind_eq_ok.1 hok
    cases hok
    obtain ⟨ts, hts, hlex⟩ := hn operand hoperand'
    exact ⟨_, .unary (Nat.le_refl 7) hts, lexes_cons.2 ⟨mid, hop, hlex⟩⟩
  · obtain ⟨n, rfl, hn⟩ := h _ _ hcall
    refine ⟨_, rfl, fun e hok => ?_⟩
    obtain ⟨ts, hts, hlex⟩ := hn e (Expr.ofNode_singleton.1 hok)
    exact ⟨ts, hts.weaken (by omega), hlex⟩

theorem Expr.sound_expression (h : Expr.Sound 1 cs) (ih : SoundAfter cs) : Expr.Sound 0 cs := by
  intro ns rest hreads
  obtain hassign | ⟨-, hor⟩ := reads_expression.1 hreads
  · obtain ⟨chars, ms, rfl, hbody⟩ := reads_rule rfl hassign
    obtain ⟨w, ms, mid, hw, hlex, hvalue, rfl⟩ := reads_assignment.1 hbody
    obtain ⟨mid', hname, hsign⟩ := lexes_cons.1 hlex
    have hafter := (ih.of_lexes hname ⟨hw.1, hw.2.1⟩).2
    obtain ⟨n, rfl, hn⟩ := (hafter.of_lexes hsign trivial).1.expr 0 (by omega) _ _ hvalue
    refine ⟨_, rfl, fun e hok => ?_⟩
    obtain ⟨value, hvalue', hok⟩ := bind_eq_ok.1 hok
    cases hok
    obtain ⟨ts, hts, hlex'⟩ := hn value hvalue'
    refine ⟨_, .assign (Ident.wellFormed_ofNode hw) hts, ?_⟩
    rw [Ident.token_ofNode]
    exact lexes_cons_cons.2 ⟨mid, hlex, hlex'⟩
  · obtain ⟨n, rfl, hn⟩ := h _ _ hor
    refine ⟨n, rfl, fun e hok => ?_⟩
    obtain ⟨ts, hts, hlex⟩ := hn e hok
    exact ⟨ts, hts.weaken (by omega), hlex⟩

/-- The rules for all strengths, from the strongest down. -/
theorem Expr.sound (ih : SoundAfter cs) : ∀ k ≤ 9, Expr.Sound k cs := by
  have h₉ := Expr.sound_primary ih
  have h₈ := Expr.sound_call h₉ ih
  have h₇ := Expr.sound_unary h₈ ih
  have hchains : ∀ k, 1 ≤ k → k ≤ 7 → Expr.Sound k cs := by
    intro k hk hk'
    induction hk' using Nat.decreasingInduction with
    | self => exact h₇
    | of_succ j hj ihj => exact Expr.sound_chain hk (by omega) (ihj (by omega)) ih
  intro k hk
  rcases (by omega : k = 9 ∨ k = 8 ∨ (1 ≤ k ∧ k ≤ 7) ∨ k = 0) with rfl | rfl | ⟨h₁, h₇⟩ | rfl
  · exact h₉
  · exact h₈
  · exact hchains k h₁ h₇
  · exact Expr.sound_expression (hchains 1 (by omega) (by omega)) ih

/-! ## Statements -/

/-- What the rule for one kind of statements reads is spelled. -/
def Stmt.SoundBy (r : Rule) (cs : List Char) : Prop :=
  ∀ ns rest, (rule r).Reads cs ns rest → ∃ n, ns = [n] ∧
    ∀ chars s, Stmt.ofNode ⟨.statement, .nowhere, chars, [n]⟩ = .ok s →
      ∃ ts, s.Spelled ts ∧ Lexes ts cs rest ∧ (s.isOpen = true → alternative.Fails rest)

theorem Stmt.sound_function (ih : SoundAfter cs) : Stmt.SoundBy .functionDeclaration cs := by
  intro ns rest hreads
  obtain ⟨chars, ms, rfl, hbody⟩ := reads_rule rfl hreads
  obtain ⟨w, ns₁, ns₂, mid, mid', hw, hlex, hps, hb, rfl⟩ := reads_functionDeclaration.1 hbody
  obtain ⟨m, hfn, hname⟩ := lexes_cons.1 hlex
  have hafter := ((ih.of_lexes hfn Rule.isWord_fn.valid).2.of_lexes hname ⟨hw.1, hw.2.1⟩).2
  obtain ⟨ps, b, rfl, rfl, hd⟩ := FunctionDef.spelled_of_reads hps hb hafter
  refine ⟨_, rfl, fun _ s hok => ?_⟩
  obtain ⟨d, hd', hok⟩ := bind_eq_ok.1 hok
  cases hok
  obtain ⟨hid, ts, hts, hlex'⟩ := hd _ _ _ d hd'
  refine ⟨_, .function hid (Ident.wellFormed_ofNode hw) hts, ?_, fun h => by cases h⟩
  rw [Ident.token_ofNode]
  exact lexes_cons_cons.2 ⟨mid, hlex, hlex'⟩

theorem Stmt.sound_variable (ih : SoundAfter cs) : Stmt.SoundBy .variableDeclaration cs := by
  intro ns rest hreads
  obtain ⟨chars, ms, rfl, hbody⟩ := reads_rule rfl hreads
  obtain ⟨w, ms, mid, mid', hw, hlex, hinit, hsemi, rfl⟩ := reads_variableDeclaration.1 hbody
  obtain ⟨m, hlet, hname⟩ := lexes_cons.1 hlex
  have hafter := ((ih.of_lexes hlet Rule.isWord_let.valid).2.of_lexes hname ⟨hw.1, hw.2.1⟩).2
  obtain hinit | ⟨-, rfl, hmid⟩ := reads_optional.1 hinit
  · obtain ⟨m', hassign, hvalue⟩ := reads_initializer.1 hinit
    obtain ⟨n, rfl, hn⟩ := (hafter.of_lexes hassign trivial).1.expr 0 (by omega) _ _ hvalue
    refine ⟨_, rfl, fun _ s hok => ?_⟩
    obtain ⟨e, he, hok⟩ := bind_eq_ok.1 hok
    cases hok
    obtain ⟨ts, hts, hlex'⟩ := hn e he
    refine ⟨_, .bindValue (Ident.wellFormed_ofNode hw) hts, ?_, fun h => by cases h⟩
    rw [Ident.token_ofNode]
    exact lexes_cons_cons.2 ⟨mid, hlex, lexes_cons.2 ⟨m', hassign,
      lexes_append.2 ⟨mid', hlex', hsemi⟩⟩⟩
  · refine ⟨_, rfl, fun _ s hok => ?_⟩
    cases hok
    refine ⟨_, .bind (Ident.wellFormed_ofNode hw), ?_, fun h => by cases h⟩
    rw [Ident.token_ofNode]
    exact lexes_cons_cons.2 ⟨mid, hlex, hsemi.congr hmid.symm rfl⟩

theorem Stmt.sound_print (ih : SoundAfter cs) : Stmt.SoundBy .printStatement cs := by
  intro ns rest hreads
  obtain ⟨chars, ms, rfl, hbody⟩ := reads_rule rfl hreads
  obtain ⟨mid, mid', hprint, hvalue, hsemi⟩ := (reads_simple Rule.isWord_print).1 hbody
  obtain ⟨n, rfl, hn⟩ :=
    (ih.of_lexes hprint Rule.isWord_print.valid).1.expr 0 (by omega) _ _ hvalue
  refine ⟨_, rfl, fun _ s hok => ?_⟩
  obtain ⟨e, he, hok⟩ := bind_eq_ok.1 hok
  cases hok
  obtain ⟨ts, hts, hlex⟩ := hn e he
  exact ⟨_, .print hts, lexes_cons.2 ⟨mid, hprint, lexes_append.2 ⟨mid', hlex, hsemi⟩⟩,
    fun h => by cases h⟩

theorem Stmt.sound_return (ih : SoundAfter cs) : Stmt.SoundBy .returnStatement cs := by
  intro ns rest hreads
  obtain ⟨chars, ms, rfl, hbody⟩ := reads_rule rfl hreads
  obtain ⟨mid, mid', hreturn, hvalue, hsemi⟩ := (reads_simple Rule.isWord_return).1 hbody
  obtain hvalue | ⟨-, rfl, hmid⟩ := reads_optional.1 hvalue
  · obtain ⟨n, rfl, hn⟩ :=
      (ih.of_lexes hreturn Rule.isWord_return.valid).1.expr 0 (by omega) _ _ hvalue
    refine ⟨_, rfl, fun _ s hok => ?_⟩
    obtain ⟨e, he, hok⟩ := bind_eq_ok.1 hok
    cases hok
    obtain ⟨ts, hts, hlex⟩ := hn e he
    exact ⟨_, .retValue hts, lexes_cons.2 ⟨mid, hreturn, lexes_append.2 ⟨mid', hlex, hsemi⟩⟩,
      fun h => by cases h⟩
  · refine ⟨_, rfl, fun _ s hok => ?_⟩
    cases hok
    exact ⟨_, .ret, lexes_cons.2 ⟨mid, hreturn, hsemi.congr hmid.symm rfl⟩, fun h => by cases h⟩

theorem Stmt.sound_if (ih : SoundAfter cs) : Stmt.SoundBy .ifStatement cs := by
  intro ns rest hreads
  obtain ⟨chars, ms, rfl, hbody⟩ := reads_rule rfl hreads
  obtain ⟨ns₁, ns₂, ns₃, mid₁, mid₂, mid₃, mid₄, hlex, htest, hc, hthen, helse, rfl⟩ :=
    reads_ifStatement.1 hbody
  obtain ⟨m, hif, ho⟩ := lexes_cons.1 hlex
  obtain ⟨hsound₁, hafter₁⟩ := (ih.of_lexes hif Rule.isWord_if.valid).2.of_lexes ho trivial
  obtain ⟨hsound₃, hafter₃⟩ := (hafter₁.of_reads htest rfl).2.of_lexes hc trivial
  obtain ⟨test, rfl, htest'⟩ := hsound₁.expr 0 (by omega) _ _ htest
  obtain ⟨consequent, rfl, hthen'⟩ := hsound₃.stmt _ _ hthen
  obtain helse | ⟨hfails, rfl, hmid⟩ := reads_optional.1 helse
  · obtain ⟨m', hkw, hother⟩ := reads_alternative.1 helse
    have hsound₄ := ((hafter₃.of_reads hthen rfl).2.of_lexes hkw Rule.isWord_else.valid).1
    obtain ⟨alternative, rfl, hother'⟩ := hsound₄.stmt _ _ hother
    refine ⟨_, rfl, fun _ s hok => ?_⟩
    obtain ⟨e, he, hok⟩ := bind_eq_ok.1 hok
    obtain ⟨a, ha, hok⟩ := bind_eq_ok.1 hok
    obtain ⟨b, hb, hok⟩ := bind_eq_ok.1 hok
    cases hok
    obtain ⟨ts, hts, hlex₁⟩ := htest' e he
    obtain ⟨us, hus, hlex₂, hopen⟩ := hthen' a ha
    obtain ⟨vs, hvs, hlex₃, hopen'⟩ := hother' b hb
    -- the alternative would belong to an open first branch
    have hclosed : a.isOpen = false := by
      by_contra hne
      exact helse.not_fails (hopen (Bool.eq_true_of_not_eq_false hne))
    exact ⟨_, .condElse hts hus hclosed hvs, lexes_cons_cons.2 ⟨mid₁, hlex, lexes_append_cons.2
      ⟨mid₂, mid₃, hlex₁, hc, lexes_append_cons.2 ⟨mid₄, m', hlex₂, hkw, hlex₃⟩⟩⟩, hopen'⟩
  · refine ⟨_, rfl, fun _ s hok => ?_⟩
    obtain ⟨e, he, hok⟩ := bind_eq_ok.1 hok
    obtain ⟨a, ha, hok⟩ := bind_eq_ok.1 hok
    cases hok
    obtain ⟨ts, hts, hlex₁⟩ := htest' e he
    obtain ⟨us, hus, hlex₂, -⟩ := hthen' a ha
    exact ⟨_, .cond hts hus, lexes_cons_cons.2 ⟨mid₁, hlex, lexes_append_cons.2
      ⟨mid₂, mid₃, hlex₁, hc, hlex₂.congr rfl hmid⟩⟩, fun _ => hfails.congr hmid⟩

theorem Stmt.sound_block (ih : SoundAfter cs) : Stmt.SoundBy .blockStatement cs := by
  intro ns rest hreads
  obtain ⟨chars, ms, rfl, hbody⟩ := reads_rule rfl hreads
  refine ⟨_, rfl, fun _ s hok => ?_⟩
  obtain ⟨body, hbody', hok⟩ := bind_eq_ok.1 hok
  cases hok
  obtain ⟨ts, hts, hlex⟩ := Stmt.spelledAll_of_reads hbody ih hbody'
  exact ⟨_, .block hts, hlex, fun h => by cases h⟩

theorem Stmt.sound_expression (he : Expr.Sound 0 cs) : Stmt.SoundBy .expressionStatement cs := by
  intro ns rest hreads
  obtain ⟨chars, ms, rfl, hbody⟩ := reads_rule rfl hreads
  obtain ⟨mid, hvalue, hsemi⟩ := reads_expressionStatement.1 hbody
  obtain ⟨n, rfl, hn⟩ := he _ _ hvalue
  refine ⟨_, rfl, fun _ s hok => ?_⟩
  obtain ⟨e, he, hok⟩ := bind_eq_ok.1 hok
  cases hok
  obtain ⟨ts, hts, hlex⟩ := hn e he
  exact ⟨_, .expr hts, lexes_append.2 ⟨mid, hlex, hsemi⟩, fun h => by cases h⟩

theorem Stmt.sound (he : Expr.Sound 0 cs) (ih : SoundAfter cs) : Stmt.Sound cs := by
  intro ns rest hreads
  obtain ⟨chars, ms, rfl, hbody⟩ := reads_rule rfl hreads
  have hby : ∀ {r}, Stmt.SoundBy r cs → (rule r).Reads cs ms rest →
      ∃ n, [⟨.statement, .nowhere, chars, ms⟩] = [n] ∧ ∀ s, Stmt.ofNode n = .ok s →
        ∃ ts, s.Spelled ts ∧ Lexes ts cs rest ∧ (s.isOpen = true → alternative.Fails rest) := by
    intro r hr h
    obtain ⟨n, rfl, hn⟩ := hr _ _ h
    exact ⟨_, rfl, hn chars⟩
  rw [Rule.body, choice_cons, choice_cons, choice_cons, choice_cons, choice_cons, choice_cons,
    choice_nil, reads_alt, reads_alt, reads_alt, reads_alt, reads_alt, reads_alt] at hbody
  obtain h | ⟨-, h | ⟨-, h | ⟨-, h | ⟨-, h | ⟨-, h | ⟨-, h⟩⟩⟩⟩⟩⟩ := hbody
  · exact hby (Stmt.sound_function ih) h
  · exact hby (Stmt.sound_variable ih) h
  · exact hby (Stmt.sound_print ih) h
  · exact hby (Stmt.sound_return ih) h
  · exact hby (Stmt.sound_if ih) h
  · exact hby (Stmt.sound_block ih) h
  · exact hby (Stmt.sound_expression he) h

/-- Whatever is read is spelled. -/
theorem sound (cs : List Char) : Sound cs := by
  induction hn : (skip cs).length using Nat.strongRecOn generalizing cs with
  | ind n ih =>
    have hafter : SoundAfter cs := fun cs' hlt => ih (skip cs').length (hn ▸ hlt) cs' rfl
    have hexpr := Expr.sound hafter
    exact ⟨hexpr, Stmt.sound (hexpr 0 (by omega)) hafter⟩

/-- A script that is read consists of tokens that denote the program. -/
theorem Program.lexes_of_read {p : Program} {s : String} (h : Program.read s = .ok p) :
    ∃ ts, Stmt.SpelledAll p.erase.body ts ∧ Lexes ts s.toList [] := by
  obtain ⟨ns, rest, body, hrepeats, hrest, hok, hp⟩ := Program.read_iff.1 ⟨p, h, rfl⟩
  obtain ⟨ts, hts, hlex⟩ := Stmt.spelledAll_of_repeats hrepeats (sound s.toList).stmt
    (fun cs _ => sound cs) hok
  rw [hp]
  exact ⟨ts, hts, hlex.congr rfl hrest⟩

end Scoped
