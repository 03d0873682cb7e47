import Scoped.Proofs.Erasure
import Scoped.Proofs.Places
import Scoped.Proofs.Spelling

/-!
# Where programs stand

`Expr.Stands k e c d` says that the text from `c` to `d` denotes the expression, where an operand
of strength `k` is asked for, and that every span in the expression is the stretch that its part
covers. It is `Spelled` with places : whatever stands somewhere is spelled by the tokens there
(`Expr.Stands.spelled`), and whatever tokens denote stands where they are, with suitable spans
(`Expr.Spelled.stands`).

An operand may end with layout. What is read as a chain of operators, or as a function with argument
lists, takes the layout after its first part along if nothing follows it (`Expr.Stands.first`), and
so does a conditional without alternative. Parentheses belong to no span.
-/

namespace Scoped

open Grammar
open Grammar.Layout (skip)

/-- The name stands from `c` to `d`, and this is its span. -/
structure Ident.Stands (x : Ident) (c d : Place) : Prop where
  wellFormed : x.WellFormed
  token : x.token.Stands c d
  span : x.span = c.upTo d

/-- The names stand from `c` to `d`, each after a comma. -/
inductive Ident.StandsMore : List Ident → Place → Place → Prop
  | nil {c : Place} : Ident.StandsMore [] c c
  | cons {x : Ident} {xs : List Ident} {c m m' d : Place} : (Token.symbol .comma).Stands c m →
    x.Stands m m' → Ident.StandsMore xs m' d → Ident.StandsMore (x :: xs) c d

/-- The names stand from `c` to `d`, with commas between them. -/
inductive Ident.StandsAll : List Ident → Place → Place → Prop
  | nil {c : Place} : Ident.StandsAll [] c c
  | cons {x : Ident} {xs : List Ident} {c m d : Place} : x.Stands c m →
    Ident.StandsMore xs m d → Ident.StandsAll (x :: xs) c d

mutual

/-- The expression stands from `c` to `d`, where an operand of strength `k` is asked for. -/
inductive Expr.Stands : Nat → Expr → Place → Place → Prop
  | literal {l : Literal} {t : Token} {c d : Place} : l.Spelled t → t.Stands c d →
    Expr.Stands 9 (.literal (c.upTo d) l) c d
  | ident {x : Ident} {c d : Place} : x.Stands c d → Expr.Stands 9 (.ident x) c d
  | function {f : FunctionDef} {c m d : Place} : f.id = none → f.span = c.upTo d →
    Token.kwFn.Stands c m → FunctionDef.Stands f m d → Expr.Stands 9 (.function f) c d
  | group {e : Expr} {c m m' d : Place} : (Token.symbol .openParen).Stands c m →
    Expr.Stands 0 e m m' → (Token.symbol .closeParen).Stands m' d → Expr.Stands 9 e c d
  | call {f : Expr} {args : List Expr} {c m m₁ m₂ d : Place} : Expr.Stands 8 f c m →
    (Token.symbol .openParen).Stands m m₁ → Expr.StandsAll args m₁ m₂ →
    (Token.symbol .closeParen).Stands m₂ d → Expr.Stands 8 (.call (c.upTo d) f args) c d
  | unary {op : UnaryOp} {e : Expr} {c m d : Place} : op.token.Stands c m →
    Expr.Stands 7 e m d → Expr.Stands 7 (.unary (c.upTo d) op e) c d
  | joined {o : Connective} {l r : Expr} {c m m' d : Place} : Expr.Stands o.strength l c m →
    o.token.Stands m m' → Expr.Stands (o.strength + 1) r m' d →
    Expr.Stands o.strength (o.join (c.upTo d) l r) c d
  | assign {x : Ident} {e : Expr} {c m m' d : Place} : x.Stands c m →
    (Token.symbol .assign).Stands m m' → Expr.Stands 0 e m' d →
    Expr.Stands 0 (.assign (c.upTo d) x e) c d
  /-- A first operand takes the layout after it along. -/
  | first {k : Nat} {e : Expr} {c d : Place} : k ≤ 8 → k ≠ 0 → k ≠ 7 →
    Expr.Stands (k + 1) e c d → Expr.Stands k e c d.skip
  /-- What is no assignment, or has no operator before it. -/
  | plain {k : Nat} {e : Expr} {c d : Place} : k = 0 ∨ k = 7 → Expr.Stands (k + 1) e c d →
    Expr.Stands k e c d

/-- The expressions stand from `c` to `d`, each after a comma. -/
inductive Expr.StandsMore : List Expr → Place → Place → Prop
  | nil {c : Place} : Expr.StandsMore [] c c
  | cons {e : Expr} {es : List Expr} {c m m' d : Place} : (Token.symbol .comma).Stands c m →
    Expr.Stands 0 e m m' → Expr.StandsMore es m' d → Expr.StandsMore (e :: es) c d

/-- The expressions stand from `c` to `d`, with commas between them. -/
inductive Expr.StandsAll : List Expr → Place → Place → Prop
  | nil {c : Place} : Expr.StandsAll [] c c
  | cons {e : Expr} {es : List Expr} {c m d : Place} : Expr.Stands 0 e c m →
    Expr.StandsMore es m d → Expr.StandsAll (e :: es) c d

/-- The statement stands from `c` to `d`. -/
inductive Stmt.Stands : Stmt → Place → Place → Prop
  | expr {e : Expr} {c m d : Place} : e.Stands 0 c m → (Token.symbol .semicolon).Stands m d →
    Stmt.Stands (.expr (c.upTo d) e) c d
  | print {e : Expr} {c m m' d : Place} : Token.kwPrint.Stands c m → e.Stands 0 m m' →
    (Token.symbol .semicolon).Stands m' d → Stmt.Stands (.print (c.upTo d) e) c d
  | ret {c m d : Place} : Token.kwReturn.Stands c m → (Token.symbol .semicolon).Stands m d →
    Stmt.Stands (.ret (c.upTo d) none) c d
  | retValue {e : Expr} {c m m' d : Place} : Token.kwReturn.Stands c m → e.Stands 0 m m' →
    (Token.symbol .semicolon).Stands m' d → Stmt.Stands (.ret (c.upTo d) (some e)) c d
  | block {body : List Stmt} {c d : Place} : Stmt.Braced body c d →
    Stmt.Stands (.block (c.upTo d) body) c d
  | bind {x : Ident} {c m m' d : Place} : Token.kwLet.Stands c m → x.Stands m m' →
    (Token.symbol .semicolon).Stands m' d → Stmt.Stands (.bind (c.upTo d) x none) c d
  | bindValue {x : Ident} {e : Expr} {c m m₁ m₂ m₃ d : Place} : Token.kwLet.Stands c m →
    x.Stands m m₁ → (Token.symbol .assign).Stands m₁ m₂ → e.Stands 0 m₂ m₃ →
    (Token.symbol .semicolon).Stands m₃ d → Stmt.Stands (.bind (c.upTo d) x (some e)) c d
  | function {f : FunctionDef} {x : Ident} {c m m' d : Place} : f.id = some x →
    f.span = c.upTo d → Token.kwFn.Stands c m → x.Stands m m' → FunctionDef.Stands f m' d →
    Stmt.Stands (.function f) c d
  /-- Where an alternative may follow and does not, the layout is taken. -/
  | cond {e : Expr} {a : Stmt} {c m m₁ m₂ m₃ d : Place} : Token.kwIf.Stands c m →
    (Token.symbol .openParen).Stands m m₁ → e.Stands 0 m₁ m₂ →
    (Token.symbol .closeParen).Stands m₂ m₃ → Stmt.Stands a m₃ d →
    Stmt.Stands (.cond (c.upTo d.skip) e a none) c d.skip
  | condElse {e : Expr} {a b : Stmt} {c m m₁ m₂ m₃ m₄ m₅ d : Place} : Token.kwIf.Stands c m →
    (Token.symbol .openParen).Stands m m₁ → e.Stands 0 m₁ m₂ →
    (Token.symbol .closeParen).Stands m₂ m₃ → Stmt.Stands a m₃ m₄ → a.isOpen = false →
    Token.kwElse.Stands m₄ m₅ → Stmt.Stands b m₅ d →
    Stmt.Stands (.cond (c.upTo d) e a (some b)) c d

/-- The statements stand from `c` to `d`, one after the other. -/
inductive Stmt.StandsAll : List Stmt → Place → Place → Prop
  | nil {c : Place} : Stmt.StandsAll [] c c
  | cons {s : Stmt} {ss : List Stmt} {c m d : Place} : Stmt.Stands s c m →
    Stmt.StandsAll ss m d → Stmt.StandsAll (s :: ss) c d

/-- The statements stand between braces. -/
inductive Stmt.Braced : List Stmt → Place → Place → Prop
  | mk {body : List Stmt} {c m m' d : Place} : (Token.symbol .openBrace).Stands c m →
    Stmt.StandsAll body m m' → (Token.symbol .closeBrace).Stands m' d → Stmt.Braced body c d

/-- The parameters and the body of the function stand from `c` to `d`. -/
inductive FunctionDef.Stands : FunctionDef → Place → Place → Prop
  | mk {span : Span} {id : Option Ident} {params : List Ident} {body : List Stmt}
    {c m m' m'' d : Place} : (Token.symbol .openParen).Stands c m → Ident.StandsAll params m m' →
    (Token.symbol .closeParen).Stands m' m'' → Stmt.Braced body m'' d →
    FunctionDef.Stands (.mk span id params (m''.upTo d) body) c d

end

/-- Induction over an expression that stands somewhere, along the operands that it starts with. -/
theorem Expr.Stands.induction
    {motive : ∀ (k : Nat) (e : Expr) (c d : Place), e.Stands k c d → Prop}
    (literal : ∀ {l : Literal} {t : Token} {c d : Place} (hl : l.Spelled t) (ht : t.Stands c d),
      motive 9 _ c d (.literal hl ht))
    (ident : ∀ {x : Ident} {c d : Place} (hx : x.Stands c d), motive 9 _ c d (.ident hx))
    (function : ∀ {f : FunctionDef} {c m d : Place} (hid : f.id = none) (hspan : f.span = c.upTo d)
      (hfn : Token.kwFn.Stands c m) (hf : f.Stands m d),
      motive 9 _ c d (.function hid hspan hfn hf))
    (group : ∀ {e : Expr} {c m m' d : Place} (ho : (Token.symbol .openParen).Stands c m)
      (he : e.Stands 0 m m') (hclose : (Token.symbol .closeParen).Stands m' d),
      motive 0 e m m' he → motive 9 e c d (.group ho he hclose))
    (call : ∀ {f : Expr} {args : List Expr} {c m m₁ m₂ d : Place} (hf : f.Stands 8 c m)
      (ho : (Token.symbol .openParen).Stands m m₁) (hargs : Expr.StandsAll args m₁ m₂)
      (hclose : (Token.symbol .closeParen).Stands m₂ d), motive 8 f c m hf →
      motive 8 _ c d (.call hf ho hargs hclose))
    (unary : ∀ {op : UnaryOp} {e : Expr} {c m d : Place} (hop : op.token.Stands c m)
      (he : e.Stands 7 m d), motive 7 _ c d (.unary hop he))
    (joined : ∀ {o : Connective} {l r : Expr} {c m m' d : Place} (hl : l.Stands o.strength c m)
      (ho : o.token.Stands m m') (hr : r.Stands (o.strength + 1) m' d),
      motive o.strength l c m hl → motive o.strength _ c d (.joined hl ho hr))
    (assign : ∀ {x : Ident} {e : Expr} {c m m' d : Place} (hx : x.Stands c m)
      (ha : (Token.symbol .assign).Stands m m') (he : e.Stands 0 m' d),
      motive 0 _ c d (.assign hx ha he))
    (first : ∀ {k : Nat} {e : Expr} {c d : Place} (hk : k ≤ 8) (hzero : k ≠ 0) (hseven : k ≠ 7)
      (he : e.Stands (k + 1) c d), motive (k + 1) e c d he →
      motive k e c d.skip (.first hk hzero hseven he))
    (plain : ∀ {k : Nat} {e : Expr} {c d : Place} (hk : k = 0 ∨ k = 7)
      (he : e.Stands (k + 1) c d), motive (k + 1) e c d he → motive k e c d (.plain hk he))
    {k : Nat} {e : Expr} {c d : Place} (h : e.Stands k c d) : motive k e c d h := by
  refine @Expr.Stands.rec motive (fun _ _ _ _ => True) (fun _ _ _ _ => True) (fun _ _ _ _ => True)
    (fun _ _ _ _ => True) (fun _ _ _ _ => True) (fun _ _ _ _ => True) literal ident
    (fun hid hspan hfn hf _ => function hid hspan hfn hf) group
    (fun hf ho hargs hclose ih _ => call hf ho hargs hclose ih) (fun hop he _ => unary hop he)
    (fun hl ho hr ih _ => joined hl ho hr ih) (fun hx ha he _ => assign hx ha he) first plain
    ?_ ?_ ?_ ?_ ?_ ?_ ?_ ?_ ?_ ?_ ?_ ?_ ?_ ?_ ?_ ?_ ?_ ?_ k e c d h
  all_goals
    intros
    trivial

/-! ## What stands somewhere is spelled there -/

variable {c c' m d : Place} {k : Nat} {e : Expr} {s : Stmt}

theorem Ident.StandsMore.tokens {xs : List Ident} (h : Ident.StandsMore xs c d) :
    (∀ x ∈ xs, x.WellFormed) ∧ Token.StandAll (Ident.moreTokens xs) c d := by
  induction h with
  | nil => exact ⟨by simp, .inl rfl⟩
  | cons hcomma hx _ ih =>
    exact ⟨List.forall_mem_cons.2 ⟨hx.wellFormed, ih.1⟩, .cons hcomma (.cons hx.token ih.2)⟩

theorem Ident.StandsAll.tokens {xs : List Ident} (h : Ident.StandsAll xs c d) :
    (∀ x ∈ xs, x.WellFormed) ∧ Token.StandAll (Ident.listTokens xs) c d := by
  cases h with
  | nil => exact ⟨by simp, .inl rfl⟩
  | cons hx hxs =>
    obtain ⟨hwell, hstand⟩ := hxs.tokens
    exact ⟨List.forall_mem_cons.2 ⟨hx.wellFormed, hwell⟩, .cons hx.token hstand⟩

mutual

theorem Expr.Stands.spelled : ∀ {k : Nat} {e : Expr} {c d : Place}, e.Stands k c d →
    ∃ ts, e.Spelled k ts ∧ Token.StandAll ts c d
  | _, _, _, _, .literal hl ht => ⟨_, .literal hl, .single ht⟩
  | _, _, _, _, .ident hx => ⟨_, .ident hx.wellFormed, .single hx.token⟩
  | _, _, _, _, .function hid _ hfn hf =>
    let ⟨_, hspelled, hts⟩ := hf.spelled
    ⟨_, .function hid hspelled, .cons hfn hts⟩
  | _, _, _, _, .group ho he hc =>
    let ⟨_, hspelled, hts⟩ := he.spelled
    ⟨_, .group hspelled, .cons ho (hts.append (.single hc))⟩
  | _, _, _, _, .call hf ho hargs hc =>
    let ⟨_, hspelled, hts⟩ := hf.spelled
    let ⟨_, hspelled', hus⟩ := hargs.spelled
    ⟨_, .call (Nat.le_refl 8) hspelled hspelled', hts.append (.cons ho (hus.append (.single hc)))⟩
  | _, _, _, _, .unary hop he =>
    let ⟨_, hspelled, hts⟩ := he.spelled
    ⟨_, .unary (Nat.le_refl 7) hspelled, .cons hop hts⟩
  | _, _, _, _, .joined hl ho hr =>
    let ⟨_, hspelled, hts⟩ := hl.spelled
    let ⟨_, hspelled', hus⟩ := hr.spelled
    ⟨_, .joined (Nat.le_refl _) hspelled hspelled', hts.append (.cons ho hus)⟩
  | _, _, _, _, .assign hx ha he =>
    let ⟨_, hspelled, hts⟩ := he.spelled
    ⟨_, .assign hx.wellFormed hspelled, .cons hx.token (.cons ha hts)⟩
  | _, _, _, _, .first _ _ _ he =>
    let ⟨_, hspelled, hts⟩ := he.spelled
    ⟨_, hspelled.weaken (Nat.le_succ _), hts.skip⟩
  | _, _, _, _, .plain _ he =>
    let ⟨_, hspelled, hts⟩ := he.spelled
    ⟨_, hspelled.weaken (Nat.le_succ _), hts⟩

theorem Expr.StandsMore.spelled : ∀ {es : List Expr} {c d : Place}, Expr.StandsMore es c d →
    ∃ ts, Expr.SpelledMore es ts ∧ Token.StandAll ts c d
  | _, _, _, .nil => ⟨[], .nil, .inl rfl⟩
  | _, _, _, .cons hcomma he hes =>
    let ⟨_, hspelled, hts⟩ := he.spelled
    let ⟨_, hspelled', hus⟩ := hes.spelled
    ⟨_, .cons hspelled hspelled', .cons hcomma (hts.append hus)⟩

theorem Expr.StandsAll.spelled : ∀ {es : List Expr} {c d : Place}, Expr.StandsAll es c d →
    ∃ ts, Expr.SpelledAll es ts ∧ Token.StandAll ts c d
  | _, _, _, .nil => ⟨[], .nil, .inl rfl⟩
  | _, _, _, .cons he hes =>
    let ⟨_, hspelled, hts⟩ := he.spelled
    let ⟨_, hspelled', hus⟩ := hes.spelled
    ⟨_, .cons hspelled hspelled', hts.append hus⟩

theorem Stmt.Stands.spelled : ∀ {s : Stmt} {c d : Place}, s.Stands c d →
    ∃ ts, s.Spelled ts ∧ Token.StandAll ts c d
  | _, _, _, .expr he hsemi =>
    let ⟨_, hspelled, hts⟩ := he.spelled
    ⟨_, .expr hspelled, hts.append (.single hsemi)⟩
  | _, _, _, .print hkw he hsemi =>
    let ⟨_, hspelled, hts⟩ := he.spelled
    ⟨_, .print hspelled, .cons hkw (hts.append (.single hsemi))⟩
  | _, _, _, .ret hkw hsemi => ⟨_, .ret, .cons hkw (.single hsemi)⟩
  | _, _, _, .retValue hkw he hsemi =>
    let ⟨_, hspelled, hts⟩ := he.spelled
    ⟨_, .retValue hspelled, .cons hkw (hts.append (.single hsemi))⟩
  | _, _, _, .block hbody =>
    let ⟨_, hspelled, hts⟩ := hbody.spelled
    ⟨_, .block hspelled, hts⟩
  | _, _, _, .bind hkw hx hsemi =>
    ⟨_, .bind hx.wellFormed, .cons hkw (.cons hx.token (.single hsemi))⟩
  | _, _, _, .bindValue hkw hx ha he hsemi =>
    let ⟨_, hspelled, hts⟩ := he.spelled
    ⟨_, .bindValue hx.wellFormed hspelled,
      .cons hkw (.cons hx.token (.cons ha (hts.append (.single hsemi))))⟩
  | _, _, _, .function hid _ hkw hx hf =>
    let ⟨_, hspelled, hts⟩ := hf.spelled
    ⟨_, .function hid hx.wellFormed hspelled, .cons hkw (.cons hx.token hts)⟩
  | _, _, _, .cond hkw ho he hc ha =>
    let ⟨_, hspelled, hts⟩ := he.spelled
    let ⟨_, hspelled', hus⟩ := ha.spelled
    ⟨_, .cond hspelled hspelled', .cons hkw (.cons ho (hts.append (.cons hc hus.skip)))⟩
  | _, _, _, .condElse hkw ho he hc ha hclosed helse hb =>
    let ⟨_, hspelled, hts⟩ := he.spelled
    let ⟨_, hspelled', hus⟩ := ha.spelled
    let ⟨_, hspelled'', hvs⟩ := hb.spelled
    ⟨_, .condElse hspelled hspelled' hclosed hspelled'',
      .cons hkw (.cons ho (hts.append (.cons hc (hus.append (.cons helse hvs)))))⟩

theorem Stmt.StandsAll.spelled : ∀ {ss : List Stmt} {c d : Place}, Stmt.StandsAll ss c d →
    ∃ ts, Stmt.SpelledAll ss ts ∧ Token.StandAll ts c d
  | _, _, _, .nil => ⟨[], .nil, .inl rfl⟩
  | _, _, _, .cons hs hss =>
    let ⟨_, hspelled, hts⟩ := hs.spelled
    let ⟨_, hspelled', hus⟩ := hss.spelled
    ⟨_, .cons hspelled hspelled', hts.append hus⟩

theorem Stmt.Braced.spelled : ∀ {body : List Stmt} {c d : Place}, Stmt.Braced body c d →
    ∃ ts, Stmt.SpelledAll body ts ∧
      Token.StandAll (.symbol .openBrace :: (ts ++ [.symbol .closeBrace])) c d
  | _, _, _, .mk ho hbody hc =>
    let ⟨ts, hspelled, hts⟩ := hbody.spelled
    ⟨ts, hspelled, .cons ho (hts.append (.single hc))⟩

theorem FunctionDef.Stands.spelled : ∀ {f : FunctionDef} {c d : Place}, f.Stands c d →
    ∃ ts, f.Spelled ts ∧ Token.StandAll ts c d
  | _, _, _, .mk ho hparams hc hbody =>
    let ⟨hwell, hts⟩ := hparams.tokens
    let ⟨_, hspelled, hus⟩ := hbody.spelled
    ⟨_, .mk hwell hspelled, .cons ho (hts.append (.cons hc hus))⟩

end

/-! ## The order of places -/

theorem Ident.Stands.le {x : Ident} (h : x.Stands c d) : c ≤ d := h.token.le

theorem Ident.StandsMore.le {xs : List Ident} (h : Ident.StandsMore xs c d) : c ≤ d := h.tokens.2.le

theorem Ident.StandsAll.le {xs : List Ident} (h : Ident.StandsAll xs c d) : c ≤ d := h.tokens.2.le

theorem Expr.Stands.skip_le (h : e.Stands k c d) : c.skip ≤ d := by
  obtain ⟨ts, hspelled, hts⟩ := h.spelled
  obtain ⟨t, us, rfl, -⟩ := hspelled.front
  exact hts.skip_le

theorem Expr.Stands.le (h : e.Stands k c d) : c ≤ d := c.le_skip.trans h.skip_le

theorem Expr.StandsMore.le {es : List Expr} (h : Expr.StandsMore es c d) : c ≤ d :=
  let ⟨_, _, hts⟩ := h.spelled
  hts.le

theorem Expr.StandsAll.le {es : List Expr} (h : Expr.StandsAll es c d) : c ≤ d :=
  let ⟨_, _, hts⟩ := h.spelled
  hts.le

theorem Stmt.Stands.skip_le (h : s.Stands c d) : c.skip ≤ d := by
  obtain ⟨ts, hspelled, hts⟩ := h.spelled
  obtain ⟨t, us, rfl, -⟩ := hspelled.front
  exact hts.skip_le

theorem Stmt.Stands.le (h : s.Stands c d) : c ≤ d := c.le_skip.trans h.skip_le

theorem Stmt.StandsAll.le {ss : List Stmt} (h : Stmt.StandsAll ss c d) : c ≤ d :=
  let ⟨_, _, hts⟩ := h.spelled
  hts.le

theorem Stmt.Braced.skip_le {body : List Stmt} (h : Stmt.Braced body c d) : c.skip ≤ d :=
  let ⟨_, _, hts⟩ := h.spelled
  hts.skip_le

theorem Stmt.Braced.le {body : List Stmt} (h : Stmt.Braced body c d) : c ≤ d :=
  c.le_skip.trans h.skip_le

theorem FunctionDef.Stands.le {f : FunctionDef} (h : f.Stands c d) : c ≤ d :=
  let ⟨_, _, hts⟩ := h.spelled
  hts.le

/-! ## Layout before -/

theorem Ident.Stands.congr {x : Ident} (h : x.Stands c d) (hc : c.skip = c'.skip) :
    x.Stands c' d := by
  refine ⟨h.wellFormed, h.token.congr hc, ?_⟩
  rw [h.span, Place.upTo, hc, Place.upTo]

theorem Expr.Stands.congr (h : e.Stands k c d) (hc : c.skip = c'.skip) : e.Stands k c' d := by
  induction h using Expr.Stands.induction with
  | literal hl ht =>
    rw [Place.upTo, hc]
    exact .literal hl (ht.congr hc)
  | ident hx => exact .ident (hx.congr hc)
  | function hid hspan hfn hf =>
    rw [Place.upTo, hc] at hspan
    exact .function hid hspan (hfn.congr hc) hf
  | group ho he hclose => exact .group (ho.congr hc) he hclose
  | call _ ho hargs hclose ih =>
    rw [Place.upTo, hc]
    exact .call (ih hc) ho hargs hclose
  | unary hop he =>
    rw [Place.upTo, hc]
    exact .unary (hop.congr hc) he
  | joined _ ho hr ih =>
    rw [Place.upTo, hc]
    exact .joined (ih hc) ho hr
  | assign hx ha he =>
    rw [Place.upTo, hc]
    exact .assign (hx.congr hc) ha he
  | first hk hzero hseven _ ih => exact .first hk hzero hseven (ih hc)
  | plain hk _ ih => exact .plain hk (ih hc)

theorem Stmt.Braced.congr {body : List Stmt} (h : Stmt.Braced body c d) (hc : c.skip = c'.skip) :
    Stmt.Braced body c' d := by
  cases h with
  | mk ho hbody hclose => exact .mk (ho.congr hc) hbody hclose

theorem Stmt.Stands.congr (h : s.Stands c d) (hc : c.skip = c'.skip) : s.Stands c' d := by
  cases h with
  | function hid hspan hkw hx hf =>
    rw [Place.upTo, hc] at hspan
    exact .function hid hspan (hkw.congr hc) hx hf
  | expr he hsemi =>
    rw [Place.upTo, hc]
    exact .expr (he.congr hc) hsemi
  | print hkw he hsemi =>
    rw [Place.upTo, hc]
    exact .print (hkw.congr hc) he hsemi
  | ret hkw hsemi =>
    rw [Place.upTo, hc]
    exact .ret (hkw.congr hc) hsemi
  | retValue hkw he hsemi =>
    rw [Place.upTo, hc]
    exact .retValue (hkw.congr hc) he hsemi
  | block hbody =>
    rw [Place.upTo, hc]
    exact .block (hbody.congr hc)
  | bind hkw hx hsemi =>
    rw [Place.upTo, hc]
    exact .bind (hkw.congr hc) hx hsemi
  | bindValue hkw hx ha he hsemi =>
    rw [Place.upTo, hc]
    exact .bindValue (hkw.congr hc) hx ha he hsemi
  | cond hkw ho he hclose ha =>
    rw [Place.upTo, hc]
    exact .cond (hkw.congr hc) ho he hclose ha
  | condElse hkw ho he hclose ha hclosed helse hb =>
    rw [Place.upTo, hc]
    exact .condElse (hkw.congr hc) ho he hclose ha hclosed helse hb

/-! ## What is spelled somewhere stands there -/

theorem Stmt.isOpen_erase : ∀ s : Stmt, s.erase.isOpen = s.isOpen
  | .expr _ _ | .print _ _ | .block _ _ | .function _ => rfl
  | .ret _ none | .ret _ (some _) | .bind _ _ none | .bind _ _ (some _) => rfl
  | .cond _ _ _ none => rfl
  | .cond _ _ _ (some b) => b.isOpen_erase

/-- What stands somewhere as an operand stands there as a weaker one, up to layout after it. -/
theorem Expr.Stands.weaken {j : Nat} (h : e.Stands k c d) (hjk : j ≤ k) (hk : k ≤ 9) :
    ∃ d', e.Stands j c d' ∧ d'.skip = d.skip := by
  induction hjk using Nat.decreasingInduction with
  | self => exact ⟨d, h, rfl⟩
  | of_succ i hi ih =>
    obtain ⟨d', hd', hskip⟩ := ih
    by_cases hplain : i = 0 ∨ i = 7
    · exact ⟨d', .plain hplain hd', hskip⟩
    · push Not at hplain
      exact ⟨d'.skip, .first (by omega) hplain.1 hplain.2 hd', d'.skip_skip.trans hskip⟩

variable {cs rest : List Char}

theorem Ident.exists_stands {x : Ident} (hx : x.WellFormed) (h : Lexes [x.token] cs rest)
    (hc : skip c.rest = skip cs) :
    ∃ (y : Ident) (d : Place), y.erase = x.erase ∧ y.Stands c d ∧ skip d.rest = skip rest := by
  obtain ⟨d, hd, hrest⟩ := h.stands hx.valid hc
  exact ⟨⟨x.name, c.upTo d⟩, d, rfl, ⟨hx, hd, rfl⟩, hrest⟩

theorem Ident.exists_standsMore {xs : List Ident} (hxs : ∀ x ∈ xs, x.WellFormed)
    (h : Lexes (Ident.moreTokens xs) cs rest) (hc : skip c.rest = skip cs) :
    ∃ ys d, ys.map Ident.erase = xs.map Ident.erase ∧ Ident.StandsMore ys c d ∧
      skip d.rest = skip rest := by
  induction xs generalizing c cs with
  | nil => exact ⟨[], c, rfl, .nil, hc.trans h⟩
  | cons x xs ih =>
    obtain ⟨hx, hxs⟩ := List.forall_mem_cons.1 hxs
    obtain ⟨cs₁, hcomma, h⟩ := lexes_cons.1 h
    obtain ⟨cs₂, hword, h⟩ := lexes_cons.1 h
    obtain ⟨m, hcomma, hm⟩ := hcomma.stands trivial hc
    obtain ⟨y, m', hy, hstands, hm'⟩ := Ident.exists_stands hx hword hm
    obtain ⟨ys, d, hys, hmore, hd⟩ := ih hxs h hm'
    exact ⟨y :: ys, d, by rw [List.map_cons, List.map_cons, hy, hys],
      .cons hcomma hstands hmore, hd⟩

theorem Ident.exists_standsAll {xs : List Ident} (hxs : ∀ x ∈ xs, x.WellFormed)
    (h : Lexes (Ident.listTokens xs) cs rest) (hc : skip c.rest = skip cs) :
    ∃ ys d, ys.map Ident.erase = xs.map Ident.erase ∧ Ident.StandsAll ys c d ∧
      skip d.rest = skip rest := by
  cases xs with
  | nil => exact ⟨[], c, rfl, .nil, hc.trans h⟩
  | cons x xs =>
    obtain ⟨hx, hxs⟩ := List.forall_mem_cons.1 hxs
    obtain ⟨cs₁, hword, h⟩ := lexes_cons.1 h
    obtain ⟨y, m, hy, hstands, hm⟩ := Ident.exists_stands hx hword hc
    obtain ⟨ys, d, hys, hmore, hd⟩ := Ident.exists_standsMore hxs h hm
    exact ⟨y :: ys, d, by rw [List.map_cons, List.map_cons, hy, hys], .cons hstands hmore, hd⟩

/-- Statements stand between braces if they stand wherever their tokens are. -/
theorem Stmt.exists_braced {ss : List Stmt} {ts : List Token}
    (hss : ∀ {c : Place} {cs rest : List Char}, Lexes ts cs rest → skip c.rest = skip cs →
      ∃ ss' d, Stmt.eraseAll ss' = Stmt.eraseAll ss ∧ Stmt.StandsAll ss' c d ∧
        skip d.rest = skip rest)
    (h : Lexes (.symbol .openBrace :: (ts ++ [.symbol .closeBrace])) cs rest)
    (hc : skip c.rest = skip cs) : ∃ ss' d, Stmt.eraseAll ss' = Stmt.eraseAll ss ∧
      Stmt.Braced ss' c d ∧ skip d.rest = skip rest := by
  obtain ⟨cs₁, ho, h⟩ := lexes_cons.1 h
  obtain ⟨cs₂, hts, hclose⟩ := lexes_append.1 h
  obtain ⟨m, ho, hm⟩ := ho.stands trivial hc
  obtain ⟨ss', m', hss', hall, hm'⟩ := hss hts hm
  obtain ⟨d, hclose, hd⟩ := hclose.stands trivial hm'
  exact ⟨ss', d, hss', .mk ho hall hclose, hd⟩

mutual

theorem Expr.Spelled.stands : ∀ {k : Nat} {e : Expr} {ts : List Token}, e.Spelled k ts → k ≤ 9 →
    ∀ {c : Place} {cs rest : List Char}, Lexes ts cs rest → skip c.rest = skip cs →
      ∃ (e' : Expr) (d : Place), e'.erase = e.erase ∧ e'.Stands k c d ∧ skip d.rest = skip rest
  | _, _, _, .literal hl, hk, c, cs, rest, h, hc => by
    obtain ⟨d, ht, hd⟩ := h.stands hl.valid hc
    obtain ⟨d', hs, hd'⟩ := (Expr.Stands.literal hl ht).weaken hk (Nat.le_refl 9)
    exact ⟨.literal (c.upTo d) _, d', rfl, hs, (Place.skip_rest hd').trans hd⟩
  | _, _, _, .ident hx, hk, c, cs, rest, h, hc => by
    obtain ⟨y, d, hy, hstands, hd⟩ := Ident.exists_stands hx h hc
    obtain ⟨d', hs, hd'⟩ := (Expr.Stands.ident hstands).weaken hk (Nat.le_refl 9)
    exact ⟨_, d', by rw [Expr.erase, Expr.erase, hy], hs, (Place.skip_rest hd').trans hd⟩
  | _, _, _, .function hid hf, hk, c, cs, rest, h, hc => by
    obtain ⟨cs₁, hfn, h⟩ := lexes_cons.1 h
    obtain ⟨m, hfn, hm⟩ := hfn.stands Rule.isWord_fn.valid hc
    obtain ⟨d, hd, hall⟩ := hf.stands h hm
    obtain ⟨f', hspan, hid', herase, hstands⟩ := hall (c.upTo d) none (by rw [hid])
    obtain ⟨d', hs, hd'⟩ := (Expr.Stands.function hid' hspan hfn hstands).weaken hk (Nat.le_refl 9)
    exact ⟨_, d', by rw [Expr.erase, Expr.erase, herase], hs, (Place.skip_rest hd').trans hd⟩
  | _, _, _, .group he, hk, c, cs, rest, h, hc => by
    obtain ⟨cs₁, ho, h⟩ := lexes_cons.1 h
    obtain ⟨cs₂, h, hclose⟩ := lexes_append.1 h
    obtain ⟨m, ho, hm⟩ := ho.stands trivial hc
    obtain ⟨e', m', he', hstands, hm'⟩ := he.stands (Nat.zero_le 9) h hm
    obtain ⟨d, hclose, hd⟩ := hclose.stands trivial hm'
    obtain ⟨d', hs, hd'⟩ := (Expr.Stands.group ho hstands hclose).weaken hk (Nat.le_refl 9)
    exact ⟨e', d', he', hs, (Place.skip_rest hd').trans hd⟩
  | _, _, _, .call hk' hf hargs, hk, c, cs, rest, h, hc => by
    obtain ⟨cs₁, cs₂, hts, ho, h⟩ := lexes_append_cons.1 h
    obtain ⟨cs₃, hus, hclose⟩ := lexes_append.1 h
    obtain ⟨f', m, hf', hstands, hm⟩ := hf.stands (by omega) hts hc
    obtain ⟨m₁, ho, hm₁⟩ := ho.stands trivial hm
    obtain ⟨args', m₂, hargs', hall, hm₂⟩ := hargs.stands hus hm₁
    obtain ⟨d, hclose, hd⟩ := hclose.stands trivial hm₂
    obtain ⟨d', hs, hd'⟩ := (Expr.Stands.call hstands ho hall hclose).weaken hk' (by omega)
    exact ⟨_, d', by rw [Expr.erase, Expr.erase, hf', hargs'], hs, (Place.skip_rest hd').trans hd⟩
  | _, _, _, @Expr.Spelled.unary _ _ op _ _ hk' he, hk, c, cs, rest, h, hc => by
    obtain ⟨cs₁, hop, h⟩ := lexes_cons.1 h
    obtain ⟨m, hop, hm⟩ := hop.stands op.valid_token hc
    obtain ⟨e', d, he', hstands, hd⟩ := he.stands (by omega) h hm
    obtain ⟨d', hs, hd'⟩ := (Expr.Stands.unary hop hstands).weaken hk' (by omega)
    exact ⟨_, d', by rw [Expr.erase, Expr.erase, he'], hs, (Place.skip_rest hd').trans hd⟩
  | _, _, _, .joined (c := o) hk' hl hr, hk, c, cs, rest, h, hc => by
    have hsix := o.strength_le_six
    obtain ⟨cs₁, cs₂, hts, ho, hus⟩ := lexes_append_cons.1 h
    obtain ⟨l', m, hl', hstands, hm⟩ := hl.stands (by omega) hts hc
    obtain ⟨m', ho, hm'⟩ := ho.stands o.valid_token hm
    obtain ⟨r', d, hr', hstands', hd⟩ := hr.stands (by omega) hus hm'
    obtain ⟨d', hs, hd'⟩ := (Expr.Stands.joined hstands ho hstands').weaken hk' (by omega)
    exact ⟨_, d', by rw [o.erase_join, o.erase_join, hl', hr'], hs, (Place.skip_rest hd').trans hd⟩
  | _, _, _, .assign hx he, hk, c, cs, rest, h, hc => by
    obtain ⟨cs₁, hword, h⟩ := lexes_cons.1 h
    obtain ⟨cs₂, hassign, h⟩ := lexes_cons.1 h
    obtain ⟨y, m, hy, hx, hm⟩ := Ident.exists_stands hx hword hc
    obtain ⟨m', hassign, hm'⟩ := hassign.stands trivial hm
    obtain ⟨e', d, he', hstands, hd⟩ := he.stands (Nat.zero_le 9) h hm'
    exact ⟨_, d, by rw [Expr.erase, Expr.erase, hy, he'], .assign hx hassign hstands, hd⟩

theorem Expr.SpelledMore.stands : ∀ {es : List Expr} {ts : List Token}, Expr.SpelledMore es ts →
    ∀ {c : Place} {cs rest : List Char}, Lexes ts cs rest → skip c.rest = skip cs →
      ∃ es' d, Expr.eraseAll es' = Expr.eraseAll es ∧ Expr.StandsMore es' c d ∧
        skip d.rest = skip rest
  | _, _, .nil, c, cs, rest, h, hc => ⟨[], c, rfl, .nil, hc.trans h⟩
  | _, _, .cons he hes, c, cs, rest, h, hc => by
    obtain ⟨cs₁, hcomma, h⟩ := lexes_cons.1 h
    obtain ⟨cs₂, hts, hus⟩ := lexes_append.1 h
    obtain ⟨m, hcomma, hm⟩ := hcomma.stands trivial hc
    obtain ⟨e', m', he', hstands, hm'⟩ := he.stands (Nat.zero_le 9) hts hm
    obtain ⟨es', d, hes', hmore, hd⟩ := hes.stands hus hm'
    exact ⟨e' :: es', d, by rw [Expr.eraseAll, Expr.eraseAll, he', hes'],
      .cons hcomma hstands hmore, hd⟩

theorem Expr.SpelledAll.stands : ∀ {es : List Expr} {ts : List Token}, Expr.SpelledAll es ts →
    ∀ {c : Place} {cs rest : List Char}, Lexes ts cs rest → skip c.rest = skip cs →
      ∃ es' d, Expr.eraseAll es' = Expr.eraseAll es ∧ Expr.StandsAll es' c d ∧
        skip d.rest = skip rest
  | _, _, .nil, c, cs, rest, h, hc => ⟨[], c, rfl, .nil, hc.trans h⟩
  | _, _, .cons he hes, c, cs, rest, h, hc => by
    obtain ⟨cs₁, hts, hus⟩ := lexes_append.1 h
    obtain ⟨e', m, he', hstands, hm⟩ := he.stands (Nat.zero_le 9) hts hc
    obtain ⟨es', d, hes', hmore, hd⟩ := hes.stands hus hm
    exact ⟨e' :: es', d, by rw [Expr.eraseAll, Expr.eraseAll, he', hes'], .cons hstands hmore, hd⟩

theorem Stmt.Spelled.stands : ∀ {s : Stmt} {ts : List Token}, s.Spelled ts →
    ∀ {c : Place} {cs rest : List Char}, Lexes ts cs rest → skip c.rest = skip cs →
      ∃ (s' : Stmt) (d : Place), s'.erase = s.erase ∧ s'.Stands c d ∧ skip d.rest = skip rest
  | _, _, .expr he, c, cs, rest, h, hc => by
    obtain ⟨cs₁, hts, hsemi⟩ := lexes_append.1 h
    obtain ⟨e', m, he', hstands, hm⟩ := he.stands (Nat.zero_le 9) hts hc
    obtain ⟨d, hsemi, hd⟩ := hsemi.stands trivial hm
    exact ⟨_, d, by rw [Stmt.erase, Stmt.erase, he'], .expr hstands hsemi, hd⟩
  | _, _, .print he, c, cs, rest, h, hc => by
    obtain ⟨cs₁, hkw, h⟩ := lexes_cons.1 h
    obtain ⟨cs₂, hts, hsemi⟩ := lexes_append.1 h
    obtain ⟨m, hkw, hm⟩ := hkw.stands Rule.isWord_print.valid hc
    obtain ⟨e', m', he', hstands, hm'⟩ := he.stands (Nat.zero_le 9) hts hm
    obtain ⟨d, hsemi, hd⟩ := hsemi.stands trivial hm'
    exact ⟨_, d, by rw [Stmt.erase, Stmt.erase, he'], .print hkw hstands hsemi, hd⟩
  | _, _, .ret, c, cs, rest, h, hc => by
    obtain ⟨cs₁, hkw, hsemi⟩ := lexes_cons.1 h
    obtain ⟨m, hkw, hm⟩ := hkw.stands Rule.isWord_return.valid hc
    obtain ⟨d, hsemi, hd⟩ := hsemi.stands trivial hm
    exact ⟨.ret (c.upTo d) none, d, rfl, .ret hkw hsemi, hd⟩
  | _, _, .retValue he, c, cs, rest, h, hc => by
    obtain ⟨cs₁, hkw, h⟩ := lexes_cons.1 h
    obtain ⟨cs₂, hts, hsemi⟩ := lexes_append.1 h
    obtain ⟨m, hkw, hm⟩ := hkw.stands Rule.isWord_return.valid hc
    obtain ⟨e', m', he', hstands, hm'⟩ := he.stands (Nat.zero_le 9) hts hm
    obtain ⟨d, hsemi, hd⟩ := hsemi.stands trivial hm'
    exact ⟨_, d, by rw [Stmt.erase, Stmt.erase, he'], .retValue hkw hstands hsemi, hd⟩
  | _, _, .block hbody, c, cs, rest, h, hc => by
    obtain ⟨body', d, hbody', hbraced, hd⟩ := Stmt.exists_braced hbody.stands h hc
    exact ⟨_, d, by rw [Stmt.erase, Stmt.erase, hbody'], .block hbraced, hd⟩
  | _, _, .bind hx, c, cs, rest, h, hc => by
    obtain ⟨cs₁, hkw, h⟩ := lexes_cons.1 h
    obtain ⟨cs₂, hword, hsemi⟩ := lexes_cons.1 h
    obtain ⟨m, hkw, hm⟩ := hkw.stands Rule.isWord_let.valid hc
    obtain ⟨y, m', hy, hx, hm'⟩ := Ident.exists_stands hx hword hm
    obtain ⟨d, hsemi, hd⟩ := hsemi.stands trivial hm'
    exact ⟨_, d, by rw [Stmt.erase, Stmt.erase, hy], .bind hkw hx hsemi, hd⟩
  | _, _, .bindValue hx he, c, cs, rest, h, hc => by
    obtain ⟨cs₁, hkw, h⟩ := lexes_cons.1 h
    obtain ⟨cs₂, hword, h⟩ := lexes_cons.1 h
    obtain ⟨cs₃, hassign, h⟩ := lexes_cons.1 h
    obtain ⟨cs₄, hts, hsemi⟩ := lexes_append.1 h
    obtain ⟨m, hkw, hm⟩ := hkw.stands Rule.isWord_let.valid hc
    obtain ⟨y, m₁, hy, hx, hm₁⟩ := Ident.exists_stands hx hword hm
    obtain ⟨m₂, hassign, hm₂⟩ := hassign.stands trivial hm₁
    obtain ⟨e', m₃, he', hstands, hm₃⟩ := he.stands (Nat.zero_le 9) hts hm₂
    obtain ⟨d, hsemi, hd⟩ := hsemi.stands trivial hm₃
    exact ⟨_, d, by rw [Stmt.erase, Stmt.erase, hy, he'], .bindValue hkw hx hassign hstands hsemi,
      hd⟩
  | _, _, .function hid hx hf, c, cs, rest, h, hc => by
    obtain ⟨cs₁, hkw, h⟩ := lexes_cons.1 h
    obtain ⟨cs₂, hword, h⟩ := lexes_cons.1 h
    obtain ⟨m, hkw, hm⟩ := hkw.stands Rule.isWord_fn.valid hc
    obtain ⟨y, m', hy, hx, hm'⟩ := Ident.exists_stands hx hword hm
    obtain ⟨d, hd, hall⟩ := hf.stands h hm'
    obtain ⟨f', hspan, hid', herase, hstands⟩ :=
      hall (c.upTo d) (some y) (by rw [hid, Option.map_some, Option.map_some, hy])
    exact ⟨_, d, by rw [Stmt.erase, Stmt.erase, herase], .function hid' hspan hkw hx hstands, hd⟩
  | _, _, .cond he ha, c, cs, rest, h, hc => by
    obtain ⟨cs₁, hkw, h⟩ := lexes_cons.1 h
    obtain ⟨cs₂, ho, h⟩ := lexes_cons.1 h
    obtain ⟨cs₃, cs₄, hts, hclose, hus⟩ := lexes_append_cons.1 h
    obtain ⟨m, hkw, hm⟩ := hkw.stands Rule.isWord_if.valid hc
    obtain ⟨m₁, ho, hm₁⟩ := ho.stands trivial hm
    obtain ⟨e', m₂, he', hstands, hm₂⟩ := he.stands (Nat.zero_le 9) hts hm₁
    obtain ⟨m₃, hclose, hm₃⟩ := hclose.stands trivial hm₂
    obtain ⟨a', d, ha', hstands', hd⟩ := ha.stands hus hm₃
    exact ⟨_, d.skip, by rw [Stmt.erase, Stmt.erase, he', ha'],
      .cond hkw ho hstands hclose hstands', by rw [Place.rest_skip, Layout.skip_skip, hd]⟩
  | _, _, .condElse he ha hclosed hb, c, cs, rest, h, hc => by
    obtain ⟨cs₁, hkw, h⟩ := lexes_cons.1 h
    obtain ⟨cs₂, ho, h⟩ := lexes_cons.1 h
    obtain ⟨cs₃, cs₄, hts, hclose, h⟩ := lexes_append_cons.1 h
    obtain ⟨cs₅, cs₆, hus, helse, hvs⟩ := lexes_append_cons.1 h
    obtain ⟨m, hkw, hm⟩ := hkw.stands Rule.isWord_if.valid hc
    obtain ⟨m₁, ho, hm₁⟩ := ho.stands trivial hm
    obtain ⟨e', m₂, he', hstands, hm₂⟩ := he.stands (Nat.zero_le 9) hts hm₁
    obtain ⟨m₃, hclose, hm₃⟩ := hclose.stands trivial hm₂
    obtain ⟨a', m₄, ha', hstands', hm₄⟩ := ha.stands hus hm₃
    obtain ⟨m₅, helse, hm₅⟩ := helse.stands Rule.isWord_else.valid hm₄
    obtain ⟨b', d, hb', hstands'', hd⟩ := hb.stands hvs hm₅
    have hclosed' : a'.isOpen = false := by rw [← a'.isOpen_erase, ha', Stmt.isOpen_erase, hclosed]
    exact ⟨_, d, by rw [Stmt.erase, Stmt.erase, he', ha', hb'],
      .condElse hkw ho hstands hclose hstands' hclosed' helse hstands'', hd⟩

theorem Stmt.SpelledAll.stands : ∀ {ss : List Stmt} {ts : List Token}, Stmt.SpelledAll ss ts →
    ∀ {c : Place} {cs rest : List Char}, Lexes ts cs rest → skip c.rest = skip cs →
      ∃ ss' d, Stmt.eraseAll ss' = Stmt.eraseAll ss ∧ Stmt.StandsAll ss' c d ∧
        skip d.rest = skip rest
  | _, _, .nil, c, cs, rest, h, hc => ⟨[], c, rfl, .nil, hc.trans h⟩
  | _, _, .cons hs hss, c, cs, rest, h, hc => by
    obtain ⟨cs₁, hts, hus⟩ := lexes_append.1 h
    obtain ⟨s', m, hs', hstands, hm⟩ := hs.stands hts hc
    obtain ⟨ss', d, hss', hall, hd⟩ := hss.stands hus hm
    exact ⟨s' :: ss', d, by rw [Stmt.eraseAll, Stmt.eraseAll, hs', hss'], .cons hstands hall, hd⟩

/-- The parameters and the body of a function stand there with every span and name for the function,
because neither is part of them. -/
theorem FunctionDef.Spelled.stands : ∀ {f : FunctionDef} {ts : List Token}, f.Spelled ts →
    ∀ {c : Place} {cs rest : List Char}, Lexes ts cs rest → skip c.rest = skip cs →
      ∃ d : Place, skip d.rest = skip rest ∧ ∀ (span : Span) (id : Option Ident),
        id.map Ident.erase = f.id.map Ident.erase → ∃ f' : FunctionDef, f'.span = span ∧
          f'.id = id ∧ f'.erase = f.erase ∧ f'.Stands c d
  | _, _, .mk hparams hbody, c, cs, rest, h, hc => by
    obtain ⟨cs₁, ho, h⟩ := lexes_cons.1 h
    obtain ⟨cs₂, cs₃, hts, hclose, hus⟩ := lexes_append_cons.1 h
    obtain ⟨m, ho, hm⟩ := ho.stands trivial hc
    obtain ⟨params', m', hparams', hall, hm'⟩ := Ident.exists_standsAll hparams hts hm
    obtain ⟨m'', hclose, hm''⟩ := hclose.stands trivial hm'
    obtain ⟨body', d, hbody', hbraced, hd⟩ := Stmt.exists_braced hbody.stands hus hm''
    refine ⟨d, hd, fun span id hid => ⟨.mk span id params' (m''.upTo d) body', rfl, rfl, ?_,
      .mk ho hall hclose hbraced⟩⟩
    rw [FunctionDef.erase, FunctionDef.erase, hparams', hbody', hid]
    rfl

end

end Scoped
