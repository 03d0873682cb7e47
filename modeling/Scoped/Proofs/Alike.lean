import Mathlib.Data.List.Forall2
import Scoped.Eval.Native
import Scoped.Operator
import Scoped.Proofs.Sites

/-!
# Programs that are alike

Two programs are alike if they differ in their spans only, and if a `Placement` allows for these :
`spans s t` says that what stands at `s` in the first program may stand at `t` in the second, and
`arises c s t` that the cause `c` may arise at these two places. Values are alike if they are
equal, or closures of functions that are alike, with one identity and one scope.

Operators and natives do not see the difference : `BinaryOp.apply_alike`,
`UnaryOp.apply_alike`, `Native.apply_alike`.

`Item.Raises` lists the failures that a place of a program can raise, and a program is alike to
itself if these are allowed for at all its places (`Stmt.alikeAll_self`).
-/

set_option linter.unusedSectionVars false

namespace Scoped

/-- The causes with which a call can fail, apart from failures in the function called. -/
def Cause.OfCall : Cause → Prop
  | .notCallable _ | .arityMismatch _ _ | .typeError _ | .stackOverflow _ => True
  | .undefinedVariable _ | .redeclaration _ | .scriptError _ => False

/-- How the places of two programs correspond. -/
structure Placement where
  /-- The spans that correspond to each other. -/
  spans : Span → Span → Prop
  refl : ∀ s, spans s s
  /-- The causes that may arise at two places. -/
  arises : Cause → Span → Span → Prop

variable {P : Placement}

/-- One name, at two places that correspond. -/
structure Ident.Matches (P : Placement) (x y : Ident) : Prop where
  name : y.name = x.name
  span : P.spans x.span y.span

/-- One name that is declared at two places. -/
structure Ident.Alike (P : Placement) (x y : Ident) : Prop extends x.Matches P y where
  redeclaration : P.arises (.redeclaration x.name) x.span y.span

mutual

/-- Two expressions that are alike. -/
inductive Expr.Alike (P : Placement) : Expr → Expr → Prop
  | literal {s t : Span} {l : Literal} : P.spans s t → Expr.Alike P (.literal s l) (.literal t l)
  | ident {x y : Ident} : x.Matches P y → P.arises (.undefinedVariable x.name) x.span y.span →
    Expr.Alike P (.ident x) (.ident y)
  | assign {s t : Span} {x y : Ident} {e f : Expr} : P.spans s t → x.Matches P y →
    P.arises (.undefinedVariable x.name) s t → e.Alike P f →
    Expr.Alike P (.assign s x e) (.assign t y f)
  | unary {s t : Span} {op : UnaryOp} {e f : Expr} : P.spans s t →
    (∀ c, P.arises (.typeError c) s t) → e.Alike P f → Expr.Alike P (.unary s op e) (.unary t op f)
  | binary {s t : Span} {op : BinaryOp} {e f e' f' : Expr} : P.spans s t →
    (∀ c, P.arises (.typeError c) s t) → e.Alike P f → e'.Alike P f' →
    Expr.Alike P (.binary s op e e') (.binary t op f f')
  | logical {s t : Span} {op : LogicalOp} {e f e' f' : Expr} : P.spans s t → e.Alike P f →
    e'.Alike P f' → Expr.Alike P (.logical s op e e') (.logical t op f f')
  | call {s t : Span} {e f : Expr} {es fs : List Expr} : P.spans s t →
    (∀ c : Cause, c.OfCall → P.arises c s t) → e.Alike P f → Expr.AlikeAll P es fs →
    Expr.Alike P (.call s e es) (.call t f fs)
  | function {d d' : FunctionDef} : d.Alike P d' → Expr.Alike P (.function d) (.function d')

/-- Expressions that are alike one by one. -/
inductive Expr.AlikeAll (P : Placement) : List Expr → List Expr → Prop
  | nil : Expr.AlikeAll P [] []
  | cons {e f : Expr} {es fs : List Expr} : e.Alike P f → Expr.AlikeAll P es fs →
    Expr.AlikeAll P (e :: es) (f :: fs)

/-- Two statements that are alike. -/
inductive Stmt.Alike (P : Placement) : Stmt → Stmt → Prop
  | expr {s t : Span} {e f : Expr} : P.spans s t → e.Alike P f →
    Stmt.Alike P (.expr s e) (.expr t f)
  | print {s t : Span} {e f : Expr} : P.spans s t → e.Alike P f →
    Stmt.Alike P (.print s e) (.print t f)
  | ret {s t : Span} : P.spans s t → Stmt.Alike P (.ret s none) (.ret t none)
  | retValue {s t : Span} {e f : Expr} : P.spans s t → e.Alike P f →
    Stmt.Alike P (.ret s (some e)) (.ret t (some f))
  | block {s t : Span} {as bs : List Stmt} : P.spans s t → Stmt.AlikeAll P as bs →
    Stmt.Alike P (.block s as) (.block t bs)
  | bind {s t : Span} {x y : Ident} : P.spans s t → x.Alike P y →
    Stmt.Alike P (.bind s x none) (.bind t y none)
  | bindValue {s t : Span} {x y : Ident} {e f : Expr} : P.spans s t → x.Alike P y → e.Alike P f →
    Stmt.Alike P (.bind s x (some e)) (.bind t y (some f))
  | function {d d' : FunctionDef} : d.Alike P d' → Option.Rel (Ident.Alike P) d.id d'.id →
    Stmt.Alike P (.function d) (.function d')
  | cond {s t : Span} {e f : Expr} {a b : Stmt} : P.spans s t → e.Alike P f → a.Alike P b →
    Stmt.Alike P (.cond s e a none) (.cond t f b none)
  | condElse {s t : Span} {e f : Expr} {a b a' b' : Stmt} : P.spans s t → e.Alike P f →
    a.Alike P b → a'.Alike P b' → Stmt.Alike P (.cond s e a (some a')) (.cond t f b (some b'))

/-- Statements that are alike one by one. -/
inductive Stmt.AlikeAll (P : Placement) : List Stmt → List Stmt → Prop
  | nil : Stmt.AlikeAll P [] []
  | cons {a b : Stmt} {as bs : List Stmt} : a.Alike P b → Stmt.AlikeAll P as bs →
    Stmt.AlikeAll P (a :: as) (b :: bs)

/-- Two functions that are alike. -/
inductive FunctionDef.Alike (P : Placement) : FunctionDef → FunctionDef → Prop
  | mk {s t s' t' : Span} {x y : Option Ident} {ps qs : List Ident} {as bs : List Stmt} :
    P.spans s t → P.spans s' t' → Option.Rel (Ident.Matches P) x y →
    ps.Forall₂ (Ident.Alike P) qs → Stmt.AlikeAll P as bs →
    FunctionDef.Alike P (.mk s x ps s' as) (.mk t y qs t' bs)

end

namespace FunctionDef.Alike

variable {d d' : FunctionDef}

theorem name?_eq (h : d.Alike P d') : d'.name? = d.name? := by
  obtain ⟨-, -, hid, -, -⟩ := h
  cases hid with
  | none => rfl
  | some hxy => exact congrArg some hxy.name

theorem params (h : d.Alike P d') : d.params.Forall₂ (Ident.Alike P) d'.params := by
  obtain ⟨-, -, -, hparams, -⟩ := h
  exact hparams

theorem body (h : d.Alike P d') : Stmt.AlikeAll P d.body d'.body := by
  obtain ⟨-, -, -, -, hbody⟩ := h
  exact hbody

theorem arity_eq (h : d.Alike P d') : d'.arity = d.arity := h.params.length_eq.symm

end FunctionDef.Alike

/-! ## Values -/

/-- Two function values that are alike. -/
inductive Function.Alike (P : Placement) : Function → Function → Prop
  | closure {n : Nat} {d d' : FunctionDef} {i : ScopeId} : d.Alike P d' →
    Function.Alike P (.closure n d i) (.closure n d' i)
  | native {n : Nat} {nat : Native} : Function.Alike P (.native n nat) (.native n nat)

/-- Two values that are alike. -/
inductive Value.Alike (P : Placement) : Value → Value → Prop
  | nil : Value.Alike P .nil .nil
  | bool {b : Bool} : Value.Alike P (.bool b) (.bool b)
  | number {n : Number} : Value.Alike P (.number n) (.number n)
  | string {s : String} : Value.Alike P (.string s) (.string s)
  | function {f g : Function} : f.Alike P g → Value.Alike P (.function f) (.function g)

namespace Function.Alike

variable {f g : Function}

theorem identity_eq (h : f.Alike P g) : g.identity = f.identity := by
  cases h <;> rfl

theorem arity_eq (h : f.Alike P g) : g.arity = f.arity := by
  cases h with
  | closure hd => exact hd.arity_eq
  | native => rfl

theorem render_eq (h : f.Alike P g) : g.render = f.render := by
  cases h with
  | closure hd => simp only [Function.render, hd.name?_eq]
  | native => rfl

end Function.Alike

namespace Value

variable {a b v w : Value}

theorem alike_of_type (h : v.type ≠ .function) : v.Alike P v := by
  cases v with
  | nil => exact .nil
  | bool => exact .bool
  | number => exact .number
  | string => exact .string
  | function => exact absurd rfl h

namespace Alike

theorem type_eq (h : v.Alike P w) : w.type = v.type := by
  cases h <;> rfl

theorem truthy_eq (h : v.Alike P w) : w.truthy = v.truthy := by
  cases h <;> rfl

theorem render_eq (h : v.Alike P w) : w.render = v.render := by
  cases h with
  | function hf => exact hf.render_eq
  | nil | bool | number | string => rfl

theorem equal_eq (h : v.Alike P w) (h' : a.Alike P b) : w.equal b = v.equal a := by
  cases h with
  | nil | bool | number | string => cases h' <;> rfl
  | function hf =>
    cases h' with
    | nil | bool | number | string => rfl
    | function hg => simp only [Value.equal, hf.identity_eq, hg.identity_eq]

theorem compare?_eq (h : v.Alike P w) (h' : a.Alike P b) :
    w.compare? b = v.compare? a := by
  cases h <;> cases h' <;> rfl

end Alike

end Value

theorem BinaryOp.arithmetic_alike {op : BinaryOp} {f : Number → Number → Except Overflow Number}
    {a a' b b' : Value} (ha : a.Alike P a') (hb : b.Alike P b') :
    op.arithmetic f a' b' = op.arithmetic f a b := by
  cases ha <;> cases hb <;> rfl

theorem BinaryOp.division_alike {op : BinaryOp} {z : TypeFault}
    {f : Number → Number → Except Overflow Number} {a a' b b' : Value} (ha : a.Alike P a')
    (hb : b.Alike P b') : op.division z f a' b' = op.division z f a b := by
  cases ha <;> cases hb <;> rfl

theorem BinaryOp.sum_alike {a a' b b' : Value} (ha : a.Alike P a') (hb : b.Alike P b') :
    BinaryOp.sum a' b' = BinaryOp.sum a b := by
  have hra := ha.render_eq
  have hrb := hb.render_eq
  cases ha <;> cases hb <;> simp_all [BinaryOp.sum, BinaryOp.arithmetic, Value.type]

/-- An operator does not tell apart what is alike. -/
theorem BinaryOp.apply_alike (op : BinaryOp) {a a' b b' : Value} (ha : a.Alike P a')
    (hb : b.Alike P b') : op.apply a' b' = op.apply a b := by
  cases op with
  | add => exact BinaryOp.sum_alike ha hb
  | sub | mul => exact BinaryOp.arithmetic_alike ha hb
  | div | rem => exact BinaryOp.division_alike ha hb
  | lt | gt | le | ge =>
    simp only [BinaryOp.apply, BinaryOp.ordering, ha.compare?_eq hb, ha.type_eq, hb.type_eq]
  | eq | ne => simp only [BinaryOp.apply, ha.equal_eq hb]

theorem UnaryOp.apply_alike (op : UnaryOp) {a b : Value} (h : a.Alike P b) :
    op.apply b = op.apply a := by
  cases op with
  | not => simp only [UnaryOp.apply, h.truthy_eq]
  | minus => cases h <;> rfl

theorem LogicalOp.decidedBy_alike (op : LogicalOp) {a b : Value} (h : a.Alike P b) :
    op.decidedBy b = op.decidedBy a := by
  cases op <;> simp only [LogicalOp.decidedBy, h.truthy_eq]

/-- Nor does a native. -/
theorem Native.apply_alike (n : Native) (clock : Int64) {as bs : List Value}
    (h : as.Forall₂ (Value.Alike P) bs) : n.apply clock bs = n.apply clock as := by
  cases h with
  | nil => cases n <;> rfl
  | cons hv _ =>
    have hr := hv.render_eq
    have ht := hv.type_eq
    cases n with
    | str => simp only [Native.apply, hr]
    | len => cases hv <;> rfl
    | time => rfl
    | typeOf => simp only [Native.apply, ht]

/-! ## Equal programs -/

section

variable (hP : ∀ s t, P.spans s t → t = s)
include hP

theorem Ident.Matches.eq {x y : Ident} (h : x.Matches P y) : y = x := by
  obtain ⟨name, span⟩ := x
  obtain ⟨name', span'⟩ := y
  obtain rfl : name' = name := h.name
  obtain rfl : span' = span := hP _ _ h.span
  rfl

theorem Ident.eq_of_alike {ps qs : List Ident} (h : ps.Forall₂ (Ident.Alike P) qs) : qs = ps := by
  induction h with
  | nil => rfl
  | cons hp _ ih => rw [hp.toMatches.eq hP, ih]

mutual

theorem Expr.eq_of_alike : ∀ {e f : Expr}, e.Alike P f → f = e
  | .literal .., _, .literal hs => by rw [hP _ _ hs]
  | .ident _, _, .ident hx _ => by rw [hx.eq hP]
  | .assign .., _, .assign hs hx _ he => by rw [hP _ _ hs, hx.eq hP, Expr.eq_of_alike he]
  | .unary .., _, .unary hs _ he => by rw [hP _ _ hs, Expr.eq_of_alike he]
  | .binary .., _, .binary hs _ he hf => by
    rw [hP _ _ hs, Expr.eq_of_alike he, Expr.eq_of_alike hf]
  | .logical .., _, .logical hs he hf => by
    rw [hP _ _ hs, Expr.eq_of_alike he, Expr.eq_of_alike hf]
  | .call .., _, .call hs _ he hes => by
    rw [hP _ _ hs, Expr.eq_of_alike he, Expr.eq_of_alikeAll hes]
  | .function _, _, .function hd => by rw [FunctionDef.eq_of_alike hd]

theorem Expr.eq_of_alikeAll : ∀ {es fs : List Expr}, Expr.AlikeAll P es fs → fs = es
  | [], _, .nil => rfl
  | _ :: _, _, .cons he hes => by rw [Expr.eq_of_alike he, Expr.eq_of_alikeAll hes]

theorem Stmt.eq_of_alike : ∀ {a b : Stmt}, a.Alike P b → b = a
  | .expr .., _, .expr hs he => by rw [hP _ _ hs, Expr.eq_of_alike he]
  | .print .., _, .print hs he => by rw [hP _ _ hs, Expr.eq_of_alike he]
  | .ret _ none, _, .ret hs => by rw [hP _ _ hs]
  | .ret _ (some _), _, .retValue hs he => by rw [hP _ _ hs, Expr.eq_of_alike he]
  | .block .., _, .block hs hb => by rw [hP _ _ hs, Stmt.eq_of_alikeAll hb]
  | .bind _ _ none, _, .bind hs hx => by rw [hP _ _ hs, hx.toMatches.eq hP]
  | .bind _ _ (some _), _, .bindValue hs hx he => by
    rw [hP _ _ hs, hx.toMatches.eq hP, Expr.eq_of_alike he]
  | .function _, _, .function hd _ => by rw [FunctionDef.eq_of_alike hd]
  | .cond _ _ _ none, _, .cond hs he ha => by
    rw [hP _ _ hs, Expr.eq_of_alike he, Stmt.eq_of_alike ha]
  | .cond _ _ _ (some _), _, .condElse hs he ha hb => by
    rw [hP _ _ hs, Expr.eq_of_alike he, Stmt.eq_of_alike ha, Stmt.eq_of_alike hb]

theorem Stmt.eq_of_alikeAll : ∀ {as bs : List Stmt}, Stmt.AlikeAll P as bs → bs = as
  | [], _, .nil => rfl
  | _ :: _, _, .cons ha has => by rw [Stmt.eq_of_alike ha, Stmt.eq_of_alikeAll has]

theorem FunctionDef.eq_of_alike : ∀ {d d' : FunctionDef}, d.Alike P d' → d' = d
  | .mk .., _, .mk hs hb hid hps has => by
    cases hid with
    | none => rw [hP _ _ hs, hP _ _ hb, Ident.eq_of_alike hP hps, Stmt.eq_of_alikeAll has]
    | some hx =>
      rw [hP _ _ hs, hP _ _ hb, hx.eq hP, Ident.eq_of_alike hP hps, Stmt.eq_of_alikeAll has]

end

/-- If only equal spans correspond, values are alike only if they are equal. -/
theorem Value.eq_of_alike {v w : Value} (h : v.Alike P w) : w = v := by
  cases h with
  | nil | bool | number | string => rfl
  | function hf =>
    cases hf with
    | native => rfl
    | closure hd => rw [FunctionDef.eq_of_alike hP hd]

end

/-! ## Programs that are alike to themselves -/

/-- The failures that a place can raise : of a name that is not bound at the name or at an
assignment to it, of a call at the call, of operands at their operator, and of a name that is
declared again at the name. -/
inductive Item.Raises : Item → Cause → Span → Prop
  | ident {id : Ident} : Raises (.expr (.ident id)) (.undefinedVariable id.name) id.span
  | assign {span : Span} {target : Ident} {e : Expr} :
    Raises (.expr (.assign span target e)) (.undefinedVariable target.name) span
  | unary {span : Span} {op : UnaryOp} {e : Expr} {fault : TypeFault} :
    Raises (.expr (.unary span op e)) (.typeError fault) span
  | binary {span : Span} {op : BinaryOp} {l r : Expr} {fault : TypeFault} :
    Raises (.expr (.binary span op l r)) (.typeError fault) span
  | call {span : Span} {f : Expr} {args : List Expr} {c : Cause} : c.OfCall →
    Raises (.expr (.call span f args)) c span
  | bind {span : Span} {id : Ident} {init : Option Expr} :
    Raises (.stmt (.bind span id init)) (.redeclaration id.name) id.span
  | function {d : FunctionDef} {id : Ident} : d.id = some id →
    Raises (.stmt (.function d)) (.redeclaration id.name) id.span
  | param {before : List Ident} {p : Ident} :
    Raises (.param before p) (.redeclaration p.name) p.span

/-- All failures of some places are allowed for. -/
def Site.Allowed (P : Placement) (sites : List Site) : Prop :=
  ∀ s ∈ sites, ∀ c span, s.item.Raises c span → P.arises c span span

namespace Site

variable {s : Site} {xs ys : List Site}

theorem allowed_cons : Allowed P (s :: xs) ↔
    (∀ c span, s.item.Raises c span → P.arises c span span) ∧ Allowed P xs :=
  List.forall_mem_cons

theorem allowed_append : Allowed P (xs ++ ys) ↔ Allowed P xs ∧ Allowed P ys :=
  List.forall_mem_append

end Site

open Site (Allowed allowed_cons allowed_append)

theorem Ident.alike_self (frames : List Frame) : ∀ (ps before : List Ident),
    Allowed P (Ident.sites frames before ps) → ps.Forall₂ (Ident.Alike P) ps
  | [], _, _ => .nil
  | p :: ps, before, h => by
    obtain ⟨hp, hps⟩ := allowed_cons.1 h
    exact .cons ⟨⟨rfl, P.refl _⟩, hp _ _ .param⟩ (alike_self frames ps (before ++ [p]) hps)

mutual

theorem Expr.alike_self : ∀ (e : Expr) {frames : List Frame}, Allowed P (e.sites frames) →
    e.Alike P e
  | .literal .., frames, _ => .literal (P.refl _)
  | .ident id, frames, h => by
    obtain ⟨hid, -⟩ := allowed_cons.1 h
    exact .ident ⟨rfl, P.refl _⟩ (hid _ _ .ident)
  | .assign _ _ e, frames, h => by
    obtain ⟨hs, he⟩ := allowed_cons.1 h
    exact .assign (P.refl _) ⟨rfl, P.refl _⟩ (hs _ _ .assign) (e.alike_self he)
  | .unary _ _ e, frames, h => by
    obtain ⟨hs, he⟩ := allowed_cons.1 h
    exact .unary (P.refl _) (fun _ => hs _ _ .unary) (e.alike_self he)
  | .binary _ _ l r, frames, h => by
    obtain ⟨hs, hlr⟩ := allowed_cons.1 h
    obtain ⟨hl, hr⟩ := allowed_append.1 hlr
    exact .binary (P.refl _) (fun _ => hs _ _ .binary) (l.alike_self hl) (r.alike_self hr)
  | .logical _ _ l r, frames, h => by
    obtain ⟨-, hlr⟩ := allowed_cons.1 h
    obtain ⟨hl, hr⟩ := allowed_append.1 hlr
    exact .logical (P.refl _) (l.alike_self hl) (r.alike_self hr)
  | .call _ f args, frames, h => by
    obtain ⟨hs, hfargs⟩ := allowed_cons.1 h
    obtain ⟨hf, hargs⟩ := allowed_append.1 hfargs
    exact .call (P.refl _) (fun _ hc => hs _ _ (.call hc)) (f.alike_self hf)
      (Expr.alikeAll_self args hargs)
  | .function d, frames, h => by
    obtain ⟨-, hd⟩ := allowed_cons.1 h
    exact .function (d.alike_self hd)

theorem Expr.alikeAll_self : ∀ (es : List Expr) {frames : List Frame},
    Allowed P (Expr.sitesAll frames es) → Expr.AlikeAll P es es
  | [], frames, _ => .nil
  | e :: es, frames, h => by
    obtain ⟨he, hes⟩ := allowed_append.1 h
    exact .cons (e.alike_self he) (Expr.alikeAll_self es hes)

theorem Stmt.alike_self : ∀ (s : Stmt) {frames : List Frame}, Allowed P (s.sites frames) →
    s.Alike P s
  | .expr _ e, frames, h => by
    obtain ⟨-, he⟩ := allowed_cons.1 h
    exact .expr (P.refl _) (e.alike_self he)
  | .print _ e, frames, h => by
    obtain ⟨-, he⟩ := allowed_cons.1 h
    exact .print (P.refl _) (e.alike_self he)
  | .ret _ none, frames, _ => .ret (P.refl _)
  | .ret _ (some e), frames, h => by
    obtain ⟨-, he⟩ := allowed_cons.1 h
    exact .retValue (P.refl _) (e.alike_self he)
  | .block _ body, frames, h => by
    obtain ⟨-, hbody⟩ := allowed_cons.1 h
    exact .block (P.refl _) (Stmt.alikeAll_self body hbody)
  | .bind _ id none, frames, h => by
    obtain ⟨hs, -⟩ := allowed_cons.1 h
    exact .bind (P.refl _) ⟨⟨rfl, P.refl _⟩, hs _ _ .bind⟩
  | .bind _ id (some e), frames, h => by
    obtain ⟨hs, he⟩ := allowed_cons.1 h
    exact .bindValue (P.refl _) ⟨⟨rfl, P.refl _⟩, hs _ _ .bind⟩ (e.alike_self he)
  | .function d, frames, h => by
    obtain ⟨hs, hd⟩ := allowed_cons.1 h
    refine .function (d.alike_self hd) ?_
    cases hid : d.id with
    | none => exact .none
    | some id => exact .some ⟨⟨rfl, P.refl _⟩, hs _ _ (.function hid)⟩
  | .cond _ test a none, frames, h => by
    obtain ⟨-, hrest⟩ := allowed_cons.1 h
    obtain ⟨htest, ha⟩ := allowed_append.1 hrest
    exact .cond (P.refl _) (test.alike_self htest) (a.alike_self ha)
  | .cond _ test a (some b), frames, h => by
    obtain ⟨-, hrest⟩ := allowed_cons.1 h
    obtain ⟨htest, hab⟩ := allowed_append.1 hrest
    obtain ⟨ha, hb⟩ := allowed_append.1 hab
    exact .condElse (P.refl _) (test.alike_self htest) (a.alike_self ha) (b.alike_self hb)

/-- Statements are alike to themselves if all failures of their places are allowed for. -/
theorem Stmt.alikeAll_self : ∀ (ss : List Stmt) {frames : List Frame},
    Allowed P (Stmt.sitesAll frames ss) → Stmt.AlikeAll P ss ss
  | [], frames, _ => .nil
  | s :: ss, frames, h => by
    obtain ⟨hs, hss⟩ := allowed_append.1 h
    exact .cons (s.alike_self hs) (Stmt.alikeAll_self ss hss)

theorem FunctionDef.alike_self : ∀ (d : FunctionDef) {frames : List Frame},
    Allowed P (d.sites frames) → d.Alike P d
  | .mk _ id params _ body, frames, h => by
    obtain ⟨hparams, hbody⟩ := allowed_append.1 h
    have hid : Option.Rel (Ident.Matches P) id id := by
      cases id with
      | none => exact .none
      | some id => exact .some ⟨rfl, P.refl _⟩
    exact .mk (P.refl _) (P.refl _) hid (Ident.alike_self frames params [] hparams)
      (Stmt.alikeAll_self body hbody)

end

end Scoped
