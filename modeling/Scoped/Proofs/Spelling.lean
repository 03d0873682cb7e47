import Scoped.Proofs.Constructs
import Scoped.Program.Read

/-!
# The language as sequences of tokens

`Spelled` relates programs to the sequences of tokens that denote them, without saying how a
sequence is found or read. Expressions come with a strength : `Expr.Spelled k e ts` says that `ts`
denotes `e` where an operand of strength `k` is asked for, so that an expression that binds
weaker has to stand in parentheses. An operator between two operands asks for its own strength
on the left, and for one more on the right, so that operators of one strength group to the left.
A conditional with two branches asks that its first branch is not open : in an open one an
alternative that follows would be taken for its own.

`WellFormed` says which programs there are. Whatever can be spelled is well-formed
(`Expr.Spelled.wellFormed`, `Stmt.Spelled.wellFormed`).
-/

namespace Scoped

open Grammar

/-! ## Well-formed programs -/

/-- The name can be written. -/
def Ident.WellFormed (x : Ident) : Prop := IsName x.name.toList

/-- The double is denoted by digits before and after a point. -/
def IsDecimal (x : Float) : Prop :=
  ∃ ds fs, (Token.decimal ds fs).Valid ∧
    x = Float.ofScientific (Literal.digitsValue (ds ++ fs)) true fs.length

/-- The literal can be written : there is none for a negative number. -/
def Literal.WellFormed : Literal → Prop
  | .number (.int n) => 0 ≤ n.toInt
  | .number (.float x) => IsDecimal x
  | _ => True

/-- An alternative that follows the statement would belong to it. -/
def Stmt.isOpen : Stmt → Bool
  | .cond _ _ _ none => true
  | .cond _ _ _ (some b) => b.isOpen
  | _ => false

mutual

/-- The names and literals can be written, and function expressions have no name. -/
def Expr.WellFormed : Expr → Prop
  | .literal _ l => l.WellFormed
  | .ident x => x.WellFormed
  | .assign _ x e => x.WellFormed ∧ e.WellFormed
  | .unary _ _ e => e.WellFormed
  | .binary _ _ l r | .logical _ _ l r => l.WellFormed ∧ r.WellFormed
  | .call _ f args => f.WellFormed ∧ Expr.WellFormedAll args
  | .function d => d.id = none ∧ d.WellFormed

def Expr.WellFormedAll : List Expr → Prop
  | [] => True
  | e :: es => e.WellFormed ∧ Expr.WellFormedAll es

/-- The names and literals can be written, functions are declared under a name, and alternatives
belong to the conditional that has them. -/
def Stmt.WellFormed : Stmt → Prop
  | .expr _ e | .print _ e | .ret _ (some e) => e.WellFormed
  | .ret _ none => True
  | .block _ body => Stmt.WellFormedAll body
  | .bind _ x none => x.WellFormed
  | .bind _ x (some e) => x.WellFormed ∧ e.WellFormed
  | .function d => (∃ x, d.id = some x ∧ x.WellFormed) ∧ d.WellFormed
  | .cond _ e a none => e.WellFormed ∧ a.WellFormed
  | .cond _ e a (some b) => e.WellFormed ∧ a.WellFormed ∧ b.WellFormed ∧ a.isOpen = false

def Stmt.WellFormedAll : List Stmt → Prop
  | [] => True
  | s :: ss => s.WellFormed ∧ Stmt.WellFormedAll ss

/-- The parameters and the body can be written. -/
def FunctionDef.WellFormed : FunctionDef → Prop
  | .mk _ _ params _ body => (∀ x ∈ params, x.WellFormed) ∧ Stmt.WellFormedAll body

end

/-- The program can be written. -/
def Program.WellFormed (p : Program) : Prop := Stmt.WellFormedAll p.body

/-! ## Spellings -/

def Ident.token (x : Ident) : Token := .word x.name.toList

/-- Names, each after a comma. -/
def Ident.moreTokens : List Ident → List Token
  | [] => []
  | x :: xs => .symbol .comma :: x.token :: Ident.moreTokens xs

/-- Names with commas between them. -/
def Ident.listTokens : List Ident → List Token
  | [] => []
  | x :: xs => x.token :: Ident.moreTokens xs

/-- The token denotes the literal. -/
inductive Literal.Spelled : Literal → Token → Prop
  | nil : Literal.Spelled .nil .kwNil
  | true : Literal.Spelled (.bool true) .kwTrue
  | false : Literal.Spelled (.bool false) .kwFalse
  | numeral {l : Literal} {t : Token} : t.IsNumeral → t.Valid → Literal.ofNumeral? t.text = some l →
    Literal.Spelled l t
  | string {raw : List Char} : (Token.quoted raw).Valid →
    Literal.Spelled (.string (String.ofList (Literal.unescape raw))) (.quoted raw)

mutual

/-- The tokens denote the expression, where an operand of strength `k` is asked for. -/
inductive Expr.Spelled : Nat → Expr → List Token → Prop
  | literal {k : Nat} {span : Span} {l : Literal} {t : Token} : l.Spelled t →
    Expr.Spelled k (.literal span l) [t]
  | ident {k : Nat} {x : Ident} : x.WellFormed → Expr.Spelled k (.ident x) [x.token]
  | function {k : Nat} {d : FunctionDef} {ts : List Token} : d.id = none → d.Spelled ts →
    Expr.Spelled k (.function d) (.kwFn :: ts)
  | group {k : Nat} {e : Expr} {ts : List Token} : Expr.Spelled 0 e ts →
    Expr.Spelled k e (.symbol .openParen :: (ts ++ [.symbol .closeParen]))
  | call {k : Nat} {span : Span} {f : Expr} {args : List Expr} {ts us : List Token} : k ≤ 8 →
    Expr.Spelled 8 f ts → Expr.SpelledAll args us →
    Expr.Spelled k (.call span f args)
      (ts ++ .symbol .openParen :: (us ++ [.symbol .closeParen]))
  | unary {k : Nat} {span : Span} {op : UnaryOp} {e : Expr} {ts : List Token} : k ≤ 7 →
    Expr.Spelled 7 e ts → Expr.Spelled k (.unary span op e) (op.token :: ts)
  | joined {k : Nat} {span : Span} {c : Connective} {l r : Expr} {ts us : List Token} :
    k ≤ c.strength → Expr.Spelled c.strength l ts → Expr.Spelled (c.strength + 1) r us →
    Expr.Spelled k (c.join span l r) (ts ++ c.token :: us)
  | assign {span : Span} {x : Ident} {e : Expr} {ts : List Token} : x.WellFormed →
    Expr.Spelled 0 e ts → Expr.Spelled 0 (.assign span x e) (x.token :: .symbol .assign :: ts)

/-- The tokens denote the expressions, each after a comma. -/
inductive Expr.SpelledMore : List Expr → List Token → Prop
  | nil : Expr.SpelledMore [] []
  | cons {e : Expr} {es : List Expr} {ts us : List Token} : Expr.Spelled 0 e ts →
    Expr.SpelledMore es us → Expr.SpelledMore (e :: es) (.symbol .comma :: (ts ++ us))

/-- The tokens denote the expressions, with commas between them. -/
inductive Expr.SpelledAll : List Expr → List Token → Prop
  | nil : Expr.SpelledAll [] []
  | cons {e : Expr} {es : List Expr} {ts us : List Token} : Expr.Spelled 0 e ts →
    Expr.SpelledMore es us → Expr.SpelledAll (e :: es) (ts ++ us)

/-- The tokens denote the statement. -/
inductive Stmt.Spelled : Stmt → List Token → Prop
  | expr {span : Span} {e : Expr} {ts : List Token} : e.Spelled 0 ts →
    Stmt.Spelled (.expr span e) (ts ++ [.symbol .semicolon])
  | print {span : Span} {e : Expr} {ts : List Token} : e.Spelled 0 ts →
    Stmt.Spelled (.print span e) (.kwPrint :: (ts ++ [.symbol .semicolon]))
  | ret {span : Span} : Stmt.Spelled (.ret span none) [.kwReturn, .symbol .semicolon]
  | retValue {span : Span} {e : Expr} {ts : List Token} : e.Spelled 0 ts →
    Stmt.Spelled (.ret span (some e)) (.kwReturn :: (ts ++ [.symbol .semicolon]))
  | block {span : Span} {body : List Stmt} {ts : List Token} : Stmt.SpelledAll body ts →
    Stmt.Spelled (.block span body) (.symbol .openBrace :: (ts ++ [.symbol .closeBrace]))
  | bind {span : Span} {x : Ident} : x.WellFormed →
    Stmt.Spelled (.bind span x none) [.kwLet, x.token, .symbol .semicolon]
  | bindValue {span : Span} {x : Ident} {e : Expr} {ts : List Token} : x.WellFormed →
    e.Spelled 0 ts → Stmt.Spelled (.bind span x (some e))
      (.kwLet :: x.token :: .symbol .assign :: (ts ++ [.symbol .semicolon]))
  | function {d : FunctionDef} {x : Ident} {ts : List Token} : d.id = some x → x.WellFormed →
    d.Spelled ts → Stmt.Spelled (.function d) (.kwFn :: x.token :: ts)
  | cond {span : Span} {e : Expr} {a : Stmt} {ts us : List Token} : e.Spelled 0 ts →
    a.Spelled us → Stmt.Spelled (.cond span e a none)
      (.kwIf :: .symbol .openParen :: (ts ++ .symbol .closeParen :: us))
  | condElse {span : Span} {e : Expr} {a b : Stmt} {ts us vs : List Token} : e.Spelled 0 ts →
    a.Spelled us → a.isOpen = false → b.Spelled vs → Stmt.Spelled (.cond span e a (some b))
      (.kwIf :: .symbol .openParen :: (ts ++ .symbol .closeParen :: (us ++ .kwElse :: vs)))

/-- The tokens denote the statements, one after the other. -/
inductive Stmt.SpelledAll : List Stmt → List Token → Prop
  | nil : Stmt.SpelledAll [] []
  | cons {s : Stmt} {ss : List Stmt} {ts us : List Token} : s.Spelled ts →
    Stmt.SpelledAll ss us → Stmt.SpelledAll (s :: ss) (ts ++ us)

/-- The tokens denote the parameters and the body of the function. -/
inductive FunctionDef.Spelled : FunctionDef → List Token → Prop
  | mk {span bodySpan : Span} {id : Option Ident} {params : List Ident} {body : List Stmt}
    {ts : List Token} : (∀ x ∈ params, x.WellFormed) → Stmt.SpelledAll body ts →
    FunctionDef.Spelled (.mk span id params bodySpan body)
      (.symbol .openParen :: (Ident.listTokens params ++ .symbol .closeParen ::
        .symbol .openBrace :: (ts ++ [.symbol .closeBrace])))

end

/-! ## What is spelled is well-formed -/

theorem Literal.ofNumeral?_integer {ds : List Char} (h : (Token.integer ds).Valid) :
    Literal.ofNumeral? ds = (Number.ofInt? (Literal.digitsValue ds)).map .number := by
  have hpoint : ¬ds.contains '.' = true := by
    rw [List.contains_iff_mem]
    intro hmem
    exact absurd (h.2 _ hmem) (by decide)
  have hdigits : ¬(ds.isEmpty || !ds.all Char.isDigit) = true := by
    rw [List.isEmpty_eq_false_iff.2 h.1, List.all_eq_true.2 h.2]
    decide
  rw [Literal.ofNumeral?, if_neg hpoint, Literal.integer?, if_neg hdigits]

theorem Literal.ofNumeral?_decimal {ds fs : List Char} (h : (Token.decimal ds fs).Valid) :
    Literal.ofNumeral? (ds ++ '.' :: fs) = some (.number (.float
      (Float.ofScientific (Literal.digitsValue (ds ++ fs)) true fs.length))) := by
  have hpoint : digits ('.' :: fs) = [] := rfl
  obtain ⟨htake, hdrop⟩ := digits_append h.1.2 hpoint
  rw [digits] at htake
  rw [afterDigits] at hdrop
  have hcontains : (ds ++ '.' :: fs).contains '.' = true :=
    List.contains_iff_mem.2 (List.mem_append_right ds List.mem_cons_self)
  have hdigits : ¬((ds ++ fs).isEmpty || !fs.all Char.isDigit) = true := by
    have hne : ds ++ fs ≠ [] := fun hnil => h.1.1 (List.append_eq_nil_iff.1 hnil).1
    rw [List.isEmpty_eq_false_iff.2 hne, List.all_eq_true.2 h.2.2]
    decide
  rw [Literal.ofNumeral?, if_pos hcontains, Literal.decimal?, hdrop]
  simp only [htake, if_neg hdigits, Option.map_some]

theorem Literal.Spelled.wellFormed {l : Literal} {t : Token} (h : l.Spelled t) :
    l.WellFormed := by
  cases h with
  | nil | true | false | string => trivial
  | numeral hnumeral hvalid h =>
    cases t with
    | integer ds =>
      rw [Token.text, Literal.ofNumeral?_integer hvalid] at h
      obtain ⟨m, hm, rfl⟩ := Option.map_eq_some_iff.1 h
      obtain ⟨i, rfl, hi⟩ := Number.ofInt?_eq_some.1 hm
      show 0 ≤ i.toInt
      omega
    | decimal ds fs =>
      rw [Token.text, Literal.ofNumeral?_decimal hvalid] at h
      cases h
      exact ⟨ds, fs, hvalid, rfl⟩
    | word | quoted | symbol => exact hnumeral.elim

theorem Connective.wellFormed_join {c : Connective} {span : Span} {l r : Expr}
    (hl : l.WellFormed) (hr : r.WellFormed) : (c.join span l r).WellFormed := by
  cases c with
  | binary op => exact ⟨hl, hr⟩
  | logical op => exact ⟨hl, hr⟩

mutual

theorem Expr.Spelled.wellFormed : ∀ {k : Nat} {e : Expr} {ts : List Token}, e.Spelled k ts →
    e.WellFormed
  | _, _, _, .literal h => h.wellFormed
  | _, _, _, .ident h => h
  | _, _, _, .function hid h => ⟨hid, h.wellFormed⟩
  | _, _, _, .group h => h.wellFormed
  | _, _, _, .call _ hf hargs => ⟨hf.wellFormed, hargs.wellFormed⟩
  | _, _, _, .unary _ h => h.wellFormed
  | _, _, _, .joined _ hl hr => Connective.wellFormed_join hl.wellFormed hr.wellFormed
  | _, _, _, .assign hx h => ⟨hx, h.wellFormed⟩

theorem Expr.SpelledMore.wellFormed : ∀ {es : List Expr} {ts : List Token},
    Expr.SpelledMore es ts → Expr.WellFormedAll es
  | _, _, .nil => trivial
  | _, _, .cons h hs => ⟨h.wellFormed, hs.wellFormed⟩

theorem Expr.SpelledAll.wellFormed : ∀ {es : List Expr} {ts : List Token},
    Expr.SpelledAll es ts → Expr.WellFormedAll es
  | _, _, .nil => trivial
  | _, _, .cons h hs => ⟨h.wellFormed, hs.wellFormed⟩

theorem Stmt.Spelled.wellFormed : ∀ {s : Stmt} {ts : List Token}, s.Spelled ts → s.WellFormed
  | _, _, .expr h | _, _, .print h | _, _, .retValue h => h.wellFormed
  | _, _, .ret => trivial
  | _, _, .block h => h.wellFormed
  | _, _, .bind hx => hx
  | _, _, .bindValue hx h => ⟨hx, h.wellFormed⟩
  | _, _, .function hid hx h => ⟨⟨_, hid, hx⟩, h.wellFormed⟩
  | _, _, .cond he ha => ⟨he.wellFormed, ha.wellFormed⟩
  | _, _, .condElse he ha ho hb => ⟨he.wellFormed, ha.wellFormed, hb.wellFormed, ho⟩

theorem Stmt.SpelledAll.wellFormed : ∀ {ss : List Stmt} {ts : List Token},
    Stmt.SpelledAll ss ts → Stmt.WellFormedAll ss
  | _, _, .nil => trivial
  | _, _, .cons h hs => ⟨h.wellFormed, hs.wellFormed⟩

theorem FunctionDef.Spelled.wellFormed : ∀ {d : FunctionDef} {ts : List Token}, d.Spelled ts →
    d.WellFormed
  | _, _, .mk hparams h => ⟨hparams, h.wellFormed⟩

end

/-! ## First tokens -/

theorem Ident.WellFormed.valid {x : Ident} (h : x.WellFormed) : x.token.Valid := ⟨h.1, h.2.1⟩

theorem UnaryOp.valid_token (op : UnaryOp) : op.token.Valid := by
  cases op <;> trivial

theorem Connective.valid_token (c : Connective) : c.token.Valid := by
  cases c with
  | binary op => cases op <;> trivial
  | logical op =>
    cases op with
    | and => exact Rule.isWord_and.valid
    | or => exact Rule.isWord_or.valid

theorem Connective.token_ne_assign (c : Connective) : c.token ≠ .symbol .assign := by
  cases c with
  | binary op => cases op <;> simp [Connective.token]
  | logical op => cases op <;> simp [Connective.token]

/-- Every token is made of characters of its kind. -/
def Grammar.Token.ValidAll (ts : List Token) : Prop := ∀ t ∈ ts, t.Valid

namespace Grammar.Token.ValidAll

variable {t : Token} {ts us : List Token}

theorem nil : ValidAll [] := by simp [ValidAll]

theorem cons (ht : t.Valid) (hts : ValidAll ts) : ValidAll (t :: ts) :=
  List.forall_mem_cons.2 ⟨ht, hts⟩

theorem append (hts : ValidAll ts) (hus : ValidAll us) : ValidAll (ts ++ us) :=
  List.forall_mem_append.2 ⟨hts, hus⟩

/-- Tokens and a symbol after them. -/
theorem closed (hts : ValidAll ts) (s : Symbol) : ValidAll (ts ++ [.symbol s]) :=
  hts.append (.cons trivial .nil)

end Grammar.Token.ValidAll

theorem Ident.validAll_moreTokens {xs : List Ident} (h : ∀ x ∈ xs, x.WellFormed) :
    Token.ValidAll (Ident.moreTokens xs) := by
  induction xs with
  | nil => exact .nil
  | cons x xs ih =>
    obtain ⟨hx, hxs⟩ := List.forall_mem_cons.1 h
    exact .cons trivial (.cons hx.valid (ih hxs))

theorem Ident.validAll_listTokens {xs : List Ident} (h : ∀ x ∈ xs, x.WellFormed) :
    Token.ValidAll (Ident.listTokens xs) := by
  cases xs with
  | nil => exact .nil
  | cons x xs =>
    obtain ⟨hx, hxs⟩ := List.forall_mem_cons.1 h
    exact .cons hx.valid (Ident.validAll_moreTokens hxs)

theorem Literal.Spelled.valid {l : Literal} {t : Token} (h : l.Spelled t) : t.Valid := by
  cases h with
  | nil => exact Rule.isWord_nil.valid
  | true => exact Token.valid_true
  | false => exact Token.valid_false
  | numeral _ hvalid => exact hvalid
  | string hvalid => exact hvalid

mutual

theorem Expr.Spelled.valid : ∀ {k : Nat} {e : Expr} {ts : List Token}, e.Spelled k ts →
    Token.ValidAll ts
  | _, _, _, .literal h => .cons h.valid .nil
  | _, _, _, .ident h => .cons h.valid .nil
  | _, _, _, .function _ h => .cons Rule.isWord_fn.valid h.valid
  | _, _, _, .group h => .cons trivial (h.valid.closed _)
  | _, _, _, .call _ hf hargs => hf.valid.append (.cons trivial (hargs.valid.closed _))
  | _, _, _, .unary _ h => .cons (UnaryOp.valid_token _) h.valid
  | _, _, _, .joined _ hl hr => hl.valid.append (.cons (Connective.valid_token _) hr.valid)
  | _, _, _, .assign hx h => .cons hx.valid (.cons trivial h.valid)

theorem Expr.SpelledMore.valid : ∀ {es : List Expr} {ts : List Token},
    Expr.SpelledMore es ts → Token.ValidAll ts
  | _, _, .nil => .nil
  | _, _, .cons h hs => .cons trivial (h.valid.append hs.valid)

theorem Expr.SpelledAll.valid : ∀ {es : List Expr} {ts : List Token},
    Expr.SpelledAll es ts → Token.ValidAll ts
  | _, _, .nil => .nil
  | _, _, .cons h hs => h.valid.append hs.valid

theorem Stmt.Spelled.valid : ∀ {s : Stmt} {ts : List Token}, s.Spelled ts → Token.ValidAll ts
  | _, _, .expr h => h.valid.closed _
  | _, _, .print h => .cons Rule.isWord_print.valid (h.valid.closed _)
  | _, _, .ret => .cons Rule.isWord_return.valid (.cons trivial .nil)
  | _, _, .retValue h => .cons Rule.isWord_return.valid (h.valid.closed _)
  | _, _, .block h => .cons trivial (h.valid.closed _)
  | _, _, .bind hx => .cons Rule.isWord_let.valid (.cons hx.valid (.cons trivial .nil))
  | _, _, .bindValue hx h =>
    .cons Rule.isWord_let.valid (.cons hx.valid (.cons trivial (h.valid.closed _)))
  | _, _, .function _ hx h => .cons Rule.isWord_fn.valid (.cons hx.valid h.valid)
  | _, _, .cond he ha =>
    .cons Rule.isWord_if.valid (.cons trivial (he.valid.append (.cons trivial ha.valid)))
  | _, _, .condElse he ha _ hb =>
    .cons Rule.isWord_if.valid (.cons trivial (he.valid.append (.cons trivial
      (ha.valid.append (.cons Rule.isWord_else.valid hb.valid)))))

theorem Stmt.SpelledAll.valid : ∀ {ss : List Stmt} {ts : List Token},
    Stmt.SpelledAll ss ts → Token.ValidAll ts
  | _, _, .nil => .nil
  | _, _, .cons h hs => h.valid.append hs.valid

theorem FunctionDef.Spelled.valid : ∀ {d : FunctionDef} {ts : List Token}, d.Spelled ts →
    Token.ValidAll ts
  | _, _, .mk hparams h =>
    .cons trivial ((Ident.validAll_listTokens hparams).append
      (.cons trivial (.cons trivial (h.valid.closed _))))

end

/-- The tokens with which an expression can start. -/
def Grammar.Token.StartsExpr : Token → Prop
  | .word w => IsName w ∨
    w ∈ [['f', 'n'], ['n', 'i', 'l'], ['t', 'r', 'u', 'e'], ['f', 'a', 'l', 's', 'e']]
  | .symbol s => s ∈ [.openParen, .sub, .not]
  | _ => True

theorem Literal.Spelled.front {l : Literal} {t : Token} (h : l.Spelled t) :
    t.StartsExpr ∧ ∀ s, t ≠ .symbol s := by
  cases h with
  | nil | true | false => exact ⟨.inr (by simp), by simp⟩
  | numeral hnumeral hvalid =>
    cases t with
    | integer | decimal => exact ⟨trivial, by simp⟩
    | word | quoted | symbol => exact hnumeral.elim
  | string hvalid => exact ⟨trivial, by simp⟩

/-- An expression starts with a token of its own. One that binds as strongly as a call does not
start with an operator. -/
theorem Expr.Spelled.front : ∀ {k : Nat} {e : Expr} {ts : List Token}, e.Spelled k ts →
    ∃ t us, ts = t :: us ∧ t.StartsExpr ∧ (8 ≤ k → ∀ op : UnaryOp, t ≠ op.token)
  | _, _, _, .literal h => by
    obtain ⟨hstarts, hsymbol⟩ := h.front
    refine ⟨_, _, rfl, hstarts, fun _ op => ?_⟩
    cases op <;> exact hsymbol _
  | _, _, _, .ident h =>
    ⟨_, _, rfl, .inl h, fun _ op => by cases op <;> simp [Ident.token, UnaryOp.token]⟩
  | _, _, _, .function _ _ =>
    ⟨_, _, rfl, .inr (by simp), fun _ op => by cases op <;> simp [UnaryOp.token]⟩
  | _, _, _, .group _ =>
    ⟨_, _, rfl, by simp [Token.StartsExpr], fun _ op => by cases op <;> simp [UnaryOp.token]⟩
  | _, _, _, .call _ hf _ => by
    obtain ⟨t, us, rfl, hstarts, hop⟩ := hf.front
    exact ⟨t, _, rfl, hstarts, fun _ => hop (Nat.le_refl 8)⟩
  | _, _, _, @Expr.Spelled.unary _ _ op _ _ hk _ =>
    ⟨_, _, rfl, by cases op <;> simp [Token.StartsExpr, UnaryOp.token], by omega⟩
  | _, _, _, .joined (c := c) hk hl _ => by
    obtain ⟨t, us, rfl, hstarts, -⟩ := hl.front
    have hc := c.strength_le_six
    exact ⟨t, _, rfl, hstarts, by omega⟩
  | _, _, _, .assign hx _ => ⟨_, _, rfl, .inl hx, by omega⟩

theorem second_ne_of_append {α : Type} {t a x : α} {us vs : List α} (hus : us.head? ≠ some a)
    (hx : x ≠ a) : ((t :: us) ++ x :: vs).tail.head? ≠ some a := by
  cases us with
  | nil => simpa using hx
  | cons u us => simpa using hus

/-- Only in an assignment the second token is the sign for it. -/
theorem Expr.Spelled.second : ∀ {k : Nat} {e : Expr} {ts : List Token}, e.Spelled k ts → 1 ≤ k →
    ts.tail.head? ≠ some (.symbol .assign)
  | _, _, _, .literal _, _ | _, _, _, .ident _, _ => by simp
  | _, _, _, .function _ (.mk _ _), _ => by simp
  | _, _, _, .group h, _ => by
    obtain ⟨t, us, rfl, hstarts, -⟩ := h.front
    rintro ⟨⟩
    simp [Token.StartsExpr] at hstarts
  | _, _, _, .call _ hf _, _ => by
    have hsecond := hf.second (by omega)
    obtain ⟨t, us, rfl, -⟩ := hf.front
    exact second_ne_of_append hsecond (by simp)
  | _, _, _, .unary _ h, _ => by
    obtain ⟨t, us, rfl, hstarts, -⟩ := h.front
    rintro ⟨⟩
    simp [Token.StartsExpr] at hstarts
  | _, _, _, .joined (c := c) _ hl _, _ => by
    have hsecond := hl.second c.one_le_strength
    obtain ⟨t, us, rfl, -⟩ := hl.front
    exact second_ne_of_append hsecond c.token_ne_assign

/-- Where an expression starts with a function, what follows the word is no name. -/
theorem Expr.Spelled.after_fn : ∀ {k : Nat} {e : Expr} {ts : List Token}, e.Spelled k ts →
    ∀ us : List Token, ts = .kwFn :: us → us.head? = some (.symbol .openParen)
  | _, _, _, .literal h, us, heq => by
    cases heq
    cases h with
    | numeral hnumeral => exact hnumeral.elim
  | _, _, _, .ident h, us, heq => by
    injection heq with heq
    injection heq with heq
    rw [Ident.WellFormed, heq] at h
    exact absurd h (by decide)
  | _, _, _, .function _ (.mk _ _), us, heq => by
    cases heq
    rfl
  | _, _, _, .group _, us, heq => by cases heq
  | _, _, _, .call _ hf _, us, heq => by
    have ih := hf.after_fn
    obtain ⟨t, vs, rfl, -⟩ := hf.front
    cases heq
    have hnext := ih vs rfl
    cases vs with
    | nil => cases hnext
    | cons v vs => exact hnext
  | _, _, _, @Expr.Spelled.unary _ _ op _ _ _ _, us, heq => by cases op <;> cases heq
  | _, _, _, .joined _ hl _, us, heq => by
    have ih := hl.after_fn
    obtain ⟨t, vs, rfl, -⟩ := hl.front
    cases heq
    have hnext := ih vs rfl
    cases vs with
    | nil => cases hnext
    | cons v vs => exact hnext
  | _, _, _, .assign h _, us, heq => by
    injection heq with heq
    injection heq with heq
    rw [Ident.WellFormed, heq] at h
    exact absurd h (by decide)

theorem Grammar.Token.StartsExpr.ne_word {t : Token} (h : t.StartsExpr) {w : List Char}
    (hw : w ∈ [['l', 'e', 't'], ['p', 'r', 'i', 'n', 't'], ['r', 'e', 't', 'u', 'r', 'n'],
      ['i', 'f'], ['e', 'l', 's', 'e']]) : t ≠ .word w := by
  have hall : ∀ w ∈ [['l', 'e', 't'], ['p', 'r', 'i', 'n', 't'], ['r', 'e', 't', 'u', 'r', 'n'],
      ['i', 'f'], ['e', 'l', 's', 'e']], ¬(IsName w ∨
        w ∈ [['f', 'n'], ['n', 'i', 'l'], ['t', 'r', 'u', 'e'], ['f', 'a', 'l', 's', 'e']]) := by
    decide
  rintro rfl
  exact hall w hw h

/-- A statement starts with a token of its own, and not with an alternative. -/
theorem Stmt.Spelled.front {s : Stmt} {ts : List Token} (h : s.Spelled ts) :
    ∃ t us, ts = t :: us ∧ t ≠ .kwElse := by
  cases h with
  | expr h =>
    obtain ⟨t, us, rfl, hstarts, -⟩ := h.front
    exact ⟨t, _, rfl, hstarts.ne_word (by simp)⟩
  | print | ret | retValue | block | bind | bindValue | function | cond | condElse =>
    exact ⟨_, _, rfl, by simp⟩

/-! ## The nodes of tokens -/

/-- What reads the operators of one strength. -/
def Connective.reader (k : Nat) : Node → Except Error Connective :=
  if k ≤ 2 then ofLogicalNode else ofBinaryNode

theorem Connective.reader_node (c : Connective) {place : Span} :
    Connective.reader c.strength ⟨.operator c.strength, place, c.token.text, []⟩ = .ok c := by
  cases c with
  | binary op => cases op <;> rfl
  | logical op => cases op <;> rfl

theorem UnaryOp.ofNode_node (op : UnaryOp) {place : Span} :
    UnaryOp.ofNode ⟨.unaryOperator, place, op.token.text, []⟩ = .ok op := by
  cases op <;> rfl

theorem Expr.ofNode_chain {k : Nat} (hk : 1 ≤ k) (hk' : k ≤ 6) (span : Span) (chars : List Char)
    (n : Node) (ns : List Node) : Expr.ofNode ⟨.ofStrength k, span, chars, n :: ns⟩ =
      Expr.ofNode n >>= fun first =>
        Expr.chainOfNodes (Connective.reader k) (.ofStrength k) span first ns := by
  interval_cases k <;> rfl

/-- A chain goes on with an operator that can be read, and its second operand. -/
theorem Expr.chainOfNodes_cons {connective : Node → Except Error Connective} {op : Node}
    {c : Connective} (hop : connective op = .ok c) (rule : Rule) (span : Span) (left : Expr)
    (n : Node) (ns : List Node) :
    Expr.chainOfNodes connective rule span left (op :: n :: ns) =
      Expr.ofNode n >>= fun right => Expr.chainOfNodes connective rule span
        (c.join ⟨span.start, n.span.stop⟩ left right) ns := by
  obtain ⟨label, place, chars, children⟩ := n
  rw [Expr.chainOfNodes, hop]
  rfl

/-- An operator that can be read stands before its operand. -/
theorem Expr.ofNode_unary {op : Node} {o : UnaryOp} (hrule : op.rule = .unaryOperator)
    (hop : UnaryOp.ofNode op = .ok o) (span : Span) (chars : List Char) (n : Node) :
    Expr.ofNode ⟨.unaryExpression, span, chars, [op, n]⟩ =
      Expr.ofNode n >>= fun e => .ok (.unary span o e) := by
  simp only [Expr.ofNode, if_pos hrule, hop]
  rfl

theorem FunctionDef.ofNodes_identifier {n : Node} (h : n.rule = .identifier) (rule : Rule)
    (span : Span) (parts : FunctionParts) (ns : List Node) :
    FunctionDef.ofNodes rule span parts (n :: ns) =
      FunctionDef.ofNodes rule span { parts with id := some (Ident.ofNode n) } ns := by
  obtain ⟨label, place, chars, children⟩ := n
  obtain rfl : label = .identifier := h
  rfl

/-- The parameters and the body of a function are its last parts. -/
theorem FunctionDef.ofNodes_pair (rule : Rule) (span : Span) (parts : FunctionParts)
    {place bodySpan : Span} {chars chars' : List Char} {params body : List Node} :
    FunctionDef.ofNodes rule span parts
        [⟨.formalParameters, place, chars, params⟩, ⟨.functionBody, bodySpan, chars', body⟩] =
      Stmt.allOfNodes body >>= fun ss =>
        .ok (.mk span parts.id (params.map Ident.ofNode) bodySpan ss) :=
  rfl

/-- A literal is read off its node. -/
theorem Literal.ofNode_literalNode {t : Token} (h : t.IsLiteral) (ht : t.Valid) {l : Literal} :
    Literal.ofNode t.literalNode = .ok l ↔ l.Spelled t := by
  have hnumeral : t.IsNumeral → (Literal.ofNode t.literalNode = .ok l ↔
      Literal.ofNumeral? t.text = some l) := by
    intro hn
    rw [Token.literalNode_numeral hn, Literal.ofNode]
    cases Literal.ofNumeral? t.text <;> simp
  constructor
  · intro hl
    cases t with
    | word w =>
      simp only [Token.IsLiteral, List.mem_cons, List.not_mem_nil, or_false] at h
      rcases h with rfl | rfl | rfl <;> cases hl
      · exact .nil
      · exact .true
      · exact .false
    | integer | decimal => exact .numeral trivial ht ((hnumeral trivial).1 hl)
    | quoted raw =>
      cases hl
      exact .string ht
    | symbol => exact h.elim
  · intro hl
    cases hl with
    | nil | true | false | string => rfl
    | numeral hn _ hl => exact (hnumeral hn).2 hl

theorem Literal.Spelled.isLiteral {l : Literal} {t : Token} (h : l.Spelled t) :
    t.IsLiteral := by
  cases h with
  | nil | true | false => simp [Token.IsLiteral]
  | numeral hn =>
    cases t with
    | integer | decimal => trivial
    | word | quoted | symbol => exact hn.elim
  | string => trivial

theorem Grammar.Token.rule_literalNode (t : Token) : t.literalNode.rule ∈
    [Rule.nilLiteral, .booleanLiteral, .numericLiteral, .stringLiteral] := by
  cases t with
  | word w => by_cases hw : w = ['n', 'i', 'l'] <;> simp [Token.literalNode, hw]
  | integer | decimal | quoted | symbol => simp [Token.literalNode]

/-- The node of a literal is read as the literal, at its span. -/
theorem Expr.ofNode_literal {n : Node}
    (h : n.rule ∈ [Rule.nilLiteral, .booleanLiteral, .numericLiteral, .stringLiteral]) :
    Expr.ofNode n = Literal.ofNode n >>= fun l => .ok (.literal n.span l) := by
  obtain ⟨label, span, text, children⟩ := n
  simp only [List.mem_cons, List.not_mem_nil, or_false] at h
  obtain rfl | rfl | rfl | rfl := h <;> rfl

/-- The node of a name. -/
def Ident.node (x : Ident) : Node := ⟨.identifier, x.span, x.name.toList, []⟩

theorem Ident.ofNode_node (x : Ident) : Ident.ofNode x.node = x := by
  rw [Ident.ofNode, Ident.node, String.ofList_toList]

/-! ## Strengths -/

theorem Expr.Spelled.weaken {j k : Nat} {e : Expr} {ts : List Token} (h : e.Spelled k ts)
    (hjk : j ≤ k) : e.Spelled j ts := by
  cases h with
  | literal h => exact .literal h
  | ident h => exact .ident h
  | function hid h => exact .function hid h
  | group h => exact .group h
  | call hk hf hargs => exact .call (hjk.trans hk) hf hargs
  | unary hk h => exact .unary (hjk.trans hk) h
  | joined hk hl hr => exact .joined (hjk.trans hk) hl hr
  | assign hx h =>
    obtain rfl : j = 0 := by omega
    exact .assign hx h

end Scoped
