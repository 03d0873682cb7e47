import Mathlib.Logic.Relation
import Scoped.Proofs.Slices
import Scoped.Proofs.Soundness

/-!
# Spans are faithful

A program that was read stands in its script (`Program.stands_of_read`), and so does every part of
it, each where its span says (`Part.Stands.of_contains`). Hence spans are nested as the parts are
and lie on character boundaries, and the text that a span covers is read as the part again
(`Part.Stands.read_text`).
-/

namespace Scoped

open Grammar
open Grammar.Layout (skip)

/-! ## The parts of a program -/

/-- A part of a program that has a span. -/
inductive Part where
  | program (p : Program)
  | stmt (s : Stmt)
  | expr (e : Expr)
  | ident (x : Ident)
  /-- The body of a function. -/
  | body (span : Span) (ss : List Stmt)

/-- Where an expression stands. -/
def Expr.span : Expr → Span
  | .literal span _ | .assign span _ _ | .unary span _ _ | .binary span _ _ _
  | .logical span _ _ _ | .call span _ _ => span
  | .ident x => x.span
  | .function f => f.span

/-- Where a statement stands. -/
def Stmt.span : Stmt → Span
  | .expr span _ | .print span _ | .ret span _ | .block span _ | .bind span _ _
  | .cond span _ _ _ => span
  | .function f => f.span

/-- The parts of a function, from left to right. -/
def FunctionDef.parts (f : FunctionDef) : List Part :=
  f.id.toList.map .ident ++ (f.params.map .ident ++ [.body f.bodySpan f.body])

/-- The parts that an expression is made of, from left to right. -/
def Expr.parts : Expr → List Part
  | .literal _ _ | .ident _ => []
  | .assign _ x e => [.ident x, .expr e]
  | .unary _ _ e => [.expr e]
  | .binary _ _ l r | .logical _ _ l r => [.expr l, .expr r]
  | .call _ f args => .expr f :: args.map .expr
  | .function f => f.parts

/-- The parts that a statement is made of, from left to right. -/
def Stmt.parts : Stmt → List Part
  | .expr _ e | .print _ e => [.expr e]
  | .ret _ e => e.toList.map .expr
  | .block _ body => body.map .stmt
  | .bind _ x e => .ident x :: e.toList.map .expr
  | .function f => f.parts
  | .cond _ e a b => .expr e :: .stmt a :: b.toList.map .stmt

namespace Part

/-- Where the part stands. -/
def span : Part → Span
  | program p => p.span
  | stmt s => s.span
  | expr e => e.span
  | ident x => x.span
  | body span _ => span

/-- The parts just below a part, from left to right. -/
def parts : Part → List Part
  | program p => p.body.map .stmt
  | stmt s => s.parts
  | expr e => e.parts
  | ident _ => []
  | body _ ss => ss.map .stmt

/-- The second part is the first one or stands somewhere below it. -/
def Contains : Part → Part → Prop := Relation.ReflTransGen fun n m => m ∈ n.parts

end Part

/-- The stretch of the script that a span covers is the text. -/
def Span.Covers (span : Span) (script text : String) : Prop :=
  ∃ before after, script = before ++ text ++ after ∧
    span = ⟨before.utf8ByteSize, (before ++ text).utf8ByteSize⟩

/-- The first span does not reach beyond the second one. -/
def Span.Inside (inner outer : Span) : Prop :=
  outer.start ≤ inner.start ∧ inner.stop ≤ outer.stop

/-! ## Parts at their places -/

variable {c c' d d' m m' : Place} {k : Nat} {e : Expr} {s : Stmt}

theorem Stmt.Stands.span_eq (h : s.Stands c d) : s.span = c.upTo d := by
  cases h with
  | function _ hspan => exact hspan
  | _ => rfl

namespace Part

/-- The part stands from `c` to `d`, and its span says so. -/
inductive Stands : Part → Place → Place → Prop
  | program {p : Program} {c d : Place} : Stmt.StandsAll p.body c d →
    p.span = ⟨c.offset, d.skip.offset⟩ → Stands (.program p) c d.skip
  | stmt {s : Stmt} {c d : Place} : c.skip = c → s.Stands c d → Stands (.stmt s) c d
  /-- Something follows every expression. -/
  | expr {k : Nat} {e : Expr} {c d : Place} : c.skip = c → k ≤ 9 → e.Stands k c d →
    e.span = c.upTo d → skip d.rest ≠ [] → Stands (.expr e) c d
  | ident {x : Ident} {c d : Place} : c.skip = c → x.Stands c d → Stands (.ident x) c d
  | body {ss : List Stmt} {c d : Place} : c.skip = c → Stmt.Braced ss c d →
    Stands (.body (c.upTo d) ss) c d

/-- The parts stand one after the other between `c` and `d`. -/
inductive Spread : List Part → Place → Place → Prop
  | nil {c d : Place} : c ≤ d → Spread [] c d
  | cons {n : Part} {ns : List Part} {c m m' d : Place} : c ≤ m → n.Stands m m' →
    Spread ns m' d → Spread (n :: ns) c d

variable {n : Part} {ns ms : List Part}

theorem Stands.le (h : n.Stands c d) : c ≤ d := by
  cases h with
  | program h => exact h.le.trans (Place.le_skip _)
  | stmt _ h | expr _ _ h | ident _ h | body _ h => exact h.le

theorem Stands.span_eq (h : n.Stands c d) : n.span = ⟨c.offset, d.offset⟩ := by
  cases h with
  | program _ hspan => exact hspan
  | stmt hc h => rw [Part.span, h.span_eq, Place.upTo, hc]
  | expr hc _ _ hspan => rw [Part.span, hspan, Place.upTo, hc]
  | ident hc h => rw [Part.span, h.span, Place.upTo, hc]
  | body hc h => rw [Part.span, Place.upTo, hc]

namespace Spread

theorem le (h : Spread ns c d) : c ≤ d := by
  induction h with
  | nil hle => exact hle
  | cons hle hn _ ih => exact hle.trans (hn.le.trans ih)

theorem widen (h : Spread ns c d) (hc : c' ≤ c) (hd : d ≤ d') : Spread ns c' d' := by
  induction h generalizing c' with
  | nil hle => exact .nil (hc.trans (hle.trans hd))
  | cons hle hn _ ih => exact .cons (hc.trans hle) hn (ih (le_refl _) hd)

theorem append (hns : Spread ns c m) (hms : Spread ms m d) : Spread (ns ++ ms) c d := by
  induction hns with
  | nil hle => exact hms.widen hle (le_refl d)
  | cons hle hn _ ih => exact .cons hle hn (ih hms)

theorem single (hc : c ≤ m) (hn : n.Stands m d) : Spread [n] c d := .cons hc hn (.nil (le_refl d))

theorem exists_stands (h : Spread ns c d) (hn : n ∈ ns) :
    ∃ m m', c ≤ m ∧ n.Stands m m' ∧ m' ≤ d := by
  induction h with
  | nil => cases hn
  | cons hle hstands hns ih =>
    cases hn with
    | head => exact ⟨_, _, hle, hstands, hns.le⟩
    | tail _ hn =>
      obtain ⟨m, m', hm, hstands', hm'⟩ := ih hn
      exact ⟨m, m', hle.trans (hstands.le.trans hm), hstands', hm'⟩

/-- Parts that stand one after the other do not overlap. -/
theorem pairwise (h : Spread ns c d) : ns.Pairwise fun a b => a.span.stop ≤ b.span.start := by
  induction h with
  | nil => exact .nil
  | cons _ hstands hns ih =>
    refine .cons (fun b hb => ?_) ih
    obtain ⟨m, m', hm, hstands', -⟩ := hns.exists_stands hb
    rw [hstands.span_eq, hstands'.span_eq]
    exact Place.offset_le hm

end Spread

end Part

/-! ## What stands somewhere consists of parts that stand there -/

open Scoped.Part (Spread)

theorem Grammar.Token.Stands.skip_ne_nil {t : Token} (h : t.Stands c d) : skip c.rest ≠ [] := by
  rw [← Place.rest_skip, h.text]
  exact List.append_ne_nil_of_left_ne_nil (Token.text_ne_nil h.valid) _

theorem Expr.StandsMore.skip_ne_nil {es : List Expr} (h : Expr.StandsMore es c m)
    (hclose : (Token.symbol .closeParen).Stands m d) : skip c.rest ≠ [] := by
  cases h with
  | nil => exact hclose.skip_ne_nil
  | cons hcomma => exact hcomma.skip_ne_nil

theorem Ident.Stands.spread {x : Ident} (h : x.Stands c d) : Spread [.ident x] c d :=
  .single c.le_skip (.ident c.skip_skip (h.congr c.skip_skip.symm))

theorem Ident.StandsMore.spread {xs : List Ident} (h : Ident.StandsMore xs c d) :
    Spread (xs.map .ident) c d := by
  induction h with
  | nil => exact .nil (le_refl _)
  | cons hcomma hx _ ih => exact (hx.spread.append ih).widen hcomma.le (le_refl _)

theorem Ident.StandsAll.spread {xs : List Ident} (h : Ident.StandsAll xs c d) :
    Spread (xs.map .ident) c d := by
  cases h with
  | nil => exact .nil (le_refl _)
  | cons hx hxs => exact hx.spread.append hxs.spread

/-- An expression whose span is all of where it stands. -/
theorem Expr.Stands.spread_self (h : e.Stands k c d) (hk : k ≤ 9) (hspan : e.span = c.upTo d)
    (hd : skip d.rest ≠ []) : Spread [.expr e] c d := by
  refine .single c.le_skip (.expr c.skip_skip hk (h.congr c.skip_skip.symm) ?_ hd)
  rw [hspan, Place.upTo_skip]

/-- Parentheses around an expression and layout after it may not be part of it. -/
theorem Expr.Stands.spread (h : e.Stands k c d) (hd : skip d.rest ≠ []) :
    Spread [.expr e] c d := by
  induction h using Expr.Stands.induction with
  | literal hl ht => exact (Expr.Stands.literal hl ht).spread_self (Nat.le_refl 9) rfl hd
  | ident hx => exact (Expr.Stands.ident hx).spread_self (Nat.le_refl 9) hx.span hd
  | function hid hspan hfn hf =>
    exact (Expr.Stands.function hid hspan hfn hf).spread_self (Nat.le_refl 9) hspan hd
  | group ho _ hclose ih => exact (ih hclose.skip_ne_nil).widen ho.le hclose.le
  | call hf ho hargs hclose =>
    exact (Expr.Stands.call hf ho hargs hclose).spread_self (by omega) rfl hd
  | unary hop he => exact (Expr.Stands.unary hop he).spread_self (by omega) rfl hd
  | @joined o l r c m m' d hl ho hr =>
    have hsix := o.strength_le_six
    exact (Expr.Stands.joined hl ho hr).spread_self (by omega) (by cases o <;> rfl) hd
  | assign hx ha he => exact (Expr.Stands.assign hx ha he).spread_self (Nat.zero_le 9) rfl hd
  | @first k e c d _ _ _ _ ih =>
    rw [Place.rest_skip, Layout.skip_skip] at hd
    exact (ih hd).widen (le_refl c) d.le_skip
  | plain _ _ ih => exact ih hd

theorem Expr.StandsMore.spread {es : List Expr} (h : Expr.StandsMore es c m)
    (hclose : (Token.symbol .closeParen).Stands m d) : Spread (es.map .expr) c m := by
  induction es generalizing c with
  | nil =>
    cases h
    exact .nil (le_refl _)
  | cons e es ih =>
    cases h with
    | cons hcomma he hes =>
      exact ((he.spread (hes.skip_ne_nil hclose)).append (ih hes)).widen hcomma.le (le_refl _)

theorem Expr.StandsAll.spread {es : List Expr} (h : Expr.StandsAll es c m)
    (hclose : (Token.symbol .closeParen).Stands m d) : Spread (es.map .expr) c m := by
  cases h with
  | nil => exact .nil (le_refl _)
  | cons he hes => exact (he.spread (hes.skip_ne_nil hclose)).append (hes.spread hclose)

theorem Stmt.Stands.spread (h : s.Stands c d) : Spread [.stmt s] c d :=
  .single c.le_skip (.stmt c.skip_skip (h.congr c.skip_skip.symm))

theorem Stmt.StandsAll.spread {ss : List Stmt} (h : Stmt.StandsAll ss c d) :
    Spread (ss.map .stmt) c d := by
  induction ss generalizing c with
  | nil =>
    cases h
    exact .nil (le_refl _)
  | cons s ss ih =>
    cases h with
    | cons hs hss => exact hs.spread.append (ih hss)

theorem Stmt.Braced.spread {body : List Stmt} (h : Stmt.Braced body c d) :
    Spread (body.map .stmt) c d := by
  cases h with
  | mk ho hbody hclose => exact hbody.spread.widen ho.le hclose.le

/-- The parts of a function after its name. -/
theorem FunctionDef.Stands.spread {f : FunctionDef} (h : f.Stands c d) :
    Spread (f.params.map .ident ++ [.body f.bodySpan f.body]) c d := by
  cases h with
  | @mk span id params body c m m' m'' d ho hparams hclose hbody =>
    have hstands : Part.Stands (.body (m''.upTo d) body) m''.skip d := by
      rw [← Place.upTo_skip]
      exact .body m''.skip_skip (hbody.congr m''.skip_skip.symm)
    exact (hparams.spread.append (.single (hclose.le.trans m''.le_skip) hstands)).widen ho.le
      (le_refl d)

theorem Expr.Stands.spread_parts (h : e.Stands k c d) (hd : skip d.rest ≠ []) :
    Spread e.parts c d := by
  induction h using Expr.Stands.induction with
  | literal _ ht => exact .nil ht.le
  | ident hx => exact .nil hx.le
  | function hid _ hfn hf =>
    rw [Expr.parts, FunctionDef.parts, hid]
    exact hf.spread.widen hfn.le (le_refl _)
  | group ho _ hclose ih => exact (ih hclose.skip_ne_nil).widen ho.le hclose.le
  | call hf ho hargs hclose =>
    exact (hf.spread ho.skip_ne_nil).append ((hargs.spread hclose).widen ho.le hclose.le)
  | unary hop he => exact (he.spread hd).widen hop.le (le_refl _)
  | @joined o l r c m m' d hl ho hr =>
    have hparts : (o.join (c.upTo d) l r).parts = [.expr l] ++ [.expr r] := by cases o <;> rfl
    rw [hparts]
    exact (hl.spread ho.skip_ne_nil).append ((hr.spread hd).widen ho.le (le_refl d))
  | assign hx ha he => exact hx.spread.append ((he.spread hd).widen ha.le (le_refl _))
  | @first k e c d _ _ _ _ ih =>
    rw [Place.rest_skip, Layout.skip_skip] at hd
    exact (ih hd).widen (le_refl c) d.le_skip
  | plain _ _ ih => exact ih hd

theorem Stmt.Stands.spread_parts (h : s.Stands c d) : Spread s.parts c d := by
  cases h with
  | expr he hsemi => exact (he.spread hsemi.skip_ne_nil).widen (le_refl c) hsemi.le
  | print hkw he hsemi => exact (he.spread hsemi.skip_ne_nil).widen hkw.le hsemi.le
  | ret hkw hsemi => exact .nil (hkw.le.trans hsemi.le)
  | retValue hkw he hsemi => exact (he.spread hsemi.skip_ne_nil).widen hkw.le hsemi.le
  | block hbody => exact hbody.spread
  | bind hkw hx hsemi => exact hx.spread.widen hkw.le hsemi.le
  | bindValue hkw hx ha he hsemi =>
    exact (hx.spread.append ((he.spread hsemi.skip_ne_nil).widen ha.le (le_refl _))).widen hkw.le
      hsemi.le
  | @function f x c m m' d hid hspan hkw hx hf =>
    rw [Stmt.parts, FunctionDef.parts, hid]
    exact (hx.spread.append hf.spread).widen hkw.le (le_refl d)
  | cond hkw ho he hclose ha =>
    exact ((he.spread hclose.skip_ne_nil).append (ha.spread.widen hclose.le (le_refl _))).widen
      (hkw.le.trans ho.le) (Place.le_skip _)
  | condElse hkw ho he hclose ha hclosed helse hb =>
    exact ((he.spread hclose.skip_ne_nil).append ((ha.spread.append
      (hb.spread.widen helse.le (le_refl d))).widen hclose.le (le_refl d))).widen
      (hkw.le.trans ho.le) (le_refl d)

/-- The parts of what stands somewhere stand there in turn. -/
theorem Part.Stands.spread_parts {n : Part} (h : n.Stands c d) : Spread n.parts c d := by
  cases h with
  | program hbody => exact hbody.spread.widen (le_refl c) (Place.le_skip _)
  | stmt _ h => exact h.spread_parts
  | expr _ _ h _ hd => exact h.spread_parts hd
  | ident _ h => exact .nil h.le
  | body _ h => exact h.spread

/-- So does all that is below it. -/
theorem Part.Stands.of_contains {n : Part} (h : n.Stands c d) {n' : Part} (hn : n.Contains n') :
    ∃ c' d', c ≤ c' ∧ n'.Stands c' d' ∧ d' ≤ d := by
  induction hn with
  | refl => exact ⟨c, d, le_refl c, h, le_refl d⟩
  | tail _ hmem ih =>
    obtain ⟨c', d', hc', hstands, hd'⟩ := ih
    obtain ⟨m, m', hm, hpart, hm'⟩ := hstands.spread_parts.exists_stands hmem
    exact ⟨m, m', hc'.trans hm, hpart, hm'.trans hd'⟩

/-! ## Spans and the script -/

theorem utf8ByteSize_ofList (cs : List Char) : (String.ofList cs).utf8ByteSize = utf8Size cs := by
  induction cs with
  | nil => rfl
  | cons c cs ih =>
    rw [String.ofList_cons, String.utf8ByteSize_append, String.utf8ByteSize_singleton, ih,
      utf8Size_cons]

theorem utf8Size_toList (s : String) : utf8Size s.toList = s.utf8ByteSize := by
  rw [← utf8ByteSize_ofList, String.ofList_toList]

/-- Two places in a script have a stretch between them. -/
theorem Grammar.Place.covers {script : String} (hc : ⟨0, script.toList⟩ ≤ c) (hcd : c ≤ d) :
    ∃ text, c.rest = text ++ d.rest ∧ d.offset = c.offset + utf8Size text ∧
      Span.Covers ⟨c.offset, d.offset⟩ script (String.ofList text) := by
  obtain ⟨u, hu, hstart⟩ := hc
  obtain ⟨v, hv, hstop⟩ := hcd
  refine ⟨v, hv, hstop, String.ofList u, String.ofList d.rest, ?_, ?_⟩
  · rw [← String.ofList_append, ← String.ofList_append, List.append_assoc, ← hv, ← hu,
      String.ofList_toList]
  · rw [← String.ofList_append, utf8ByteSize_ofList, utf8ByteSize_ofList, utf8Size_append, hstop,
      hstart, Nat.zero_add]

theorem Span.Covers.bounds {span : Span} {script text : String} (h : span.Covers script text) :
    span.start ≤ span.stop ∧ span.stop ≤ script.utf8ByteSize := by
  obtain ⟨before, after, rfl, rfl⟩ := h
  simp only [String.utf8ByteSize_append]
  omega

theorem append_inj_of_utf8Size {us vs us' vs' : List Char} (h : us ++ vs = us' ++ vs')
    (hsize : utf8Size us = utf8Size us') : us = us' ∧ vs = vs' := by
  induction us generalizing us' with
  | nil =>
    cases us' with
    | nil => exact ⟨rfl, h⟩
    | cons x us' =>
      have hpos := x.utf8Size_pos
      rw [utf8Size_nil, utf8Size_cons] at hsize
      omega
  | cons x us ih =>
    cases us' with
    | nil =>
      have hpos := x.utf8Size_pos
      rw [utf8Size_nil, utf8Size_cons] at hsize
      omega
    | cons y us' =>
      obtain ⟨rfl, htail⟩ := List.cons.inj h
      rw [utf8Size_cons, utf8Size_cons, Nat.add_left_cancel_iff] at hsize
      obtain ⟨rfl, rfl⟩ := ih htail hsize
      exact ⟨rfl, rfl⟩

/-- A span covers one text. -/
theorem Span.Covers.unique {span : Span} {script text text' : String}
    (h : span.Covers script text) (h' : span.Covers script text') : text = text' := by
  obtain ⟨before, after, rfl, rfl⟩ := h
  obtain ⟨before', after', heq, hspan⟩ := h'
  simp only [Span.mk.injEq, ← utf8Size_toList, String.toList_append] at hspan
  have hlists := congrArg String.toList heq
  simp only [String.toList_append] at hlists
  obtain ⟨htexts, -⟩ := append_inj_of_utf8Size hlists hspan.2
  obtain ⟨-, htext⟩ := append_inj_of_utf8Size htexts hspan.1
  exact String.toList_inj.1 htext

/-- What was read stands in the script. -/
theorem Program.stands_of_read {script : String} {p : Program} (h : Program.read script = .ok p) :
    p.span = ⟨0, script.utf8ByteSize⟩ ∧ ∃ d, (Part.program p).Stands ⟨0, script.toList⟩ d := by
  obtain ⟨ts, hspelled, hlex⟩ := Program.lexes_of_read h
  obtain ⟨body, d, -, hstands, hd⟩ := hspelled.stands hlex (c := ⟨0, script.toList⟩) rfl
  have hend : skip d.rest = [] := hd.trans Layout.skip_nil
  obtain rfl := Except.ok.inj (h.symm.trans (Program.read_of_stands hstands hend))
  refine ⟨by rw [utf8Size_toList], d.skip, .program hstands ?_⟩
  rw [hstands.offset_eq hend]

namespace Part.Stands

variable {n : Part} {script : String}

theorem inside (h : n.Stands c d) : ∀ m ∈ n.parts, m.span.Inside n.span := by
  intro m hm
  obtain ⟨c', d', hc', hstands, hd'⟩ := h.spread_parts.exists_stands hm
  rw [hstands.span_eq, h.span_eq]
  exact ⟨Place.offset_le hc', Place.offset_le hd'⟩

/-- The text that a part covers is read as this part. -/
theorem read_text (h : n.Stands c d) (hc : ⟨0, script.toList⟩ ≤ c) :
    ∃ text, n.span.Covers script text ∧
      (∀ e, n = .expr e → Program.read (text ++ ";") = .ok ⟨⟨0, text.utf8ByteSize + 1⟩,
        [.expr ⟨0, text.utf8ByteSize + 1⟩ (e.relocate (.back n.span.start))]⟩) ∧
      ∀ s, n = .stmt s → Program.read text = .ok ⟨⟨0, text.utf8ByteSize⟩,
        [s.relocate (.back n.span.start)]⟩ := by
  obtain ⟨text, htext, hsize, hcovers⟩ := Place.covers hc h.le
  rw [h.span_eq]
  refine ⟨String.ofList text, hcovers, ?_⟩
  rw [utf8ByteSize_ofList]
  constructor
  · rintro e rfl
    cases h with
    | expr hskip hk he _ hd =>
      have hrest : d.rest ≠ [] := fun hnil => hd (by rw [hnil, Layout.skip_nil])
      have hread := he.read_slice hk hskip hrest htext hsize
      rw [String.ofList_append] at hread
      exact hread
  · rintro s rfl
    cases h with
    | stmt _ hs => exact hs.read_slice htext hsize

end Part.Stands

/-- The spans of a program that was read are those of its parts : the program covers the script,
every part lies inside the one around it and after the one before it, on character boundaries, and
the text that it covers is read as the part, counted from its start. An expression is read with a
semicolon after it. -/
theorem Program.spans_of_read {script : String} {p : Program} (h : Program.read script = .ok p) :
    p.span = ⟨0, script.utf8ByteSize⟩ ∧ ∀ n, (Part.program p).Contains n →
      n.span.start ≤ n.span.stop ∧ n.span.stop ≤ script.utf8ByteSize ∧
      (∀ m ∈ n.parts, m.span.Inside n.span) ∧
      (n.parts.Pairwise fun a b => a.span.stop ≤ b.span.start) ∧
      ∃ text, n.span.Covers script text ∧
        (∀ e, n = .expr e → Program.read (text ++ ";") = .ok ⟨⟨0, text.utf8ByteSize + 1⟩,
          [.expr ⟨0, text.utf8ByteSize + 1⟩ (e.relocate (.back n.span.start))]⟩) ∧
        ∀ s, n = .stmt s → Program.read text = .ok ⟨⟨0, text.utf8ByteSize⟩,
          [s.relocate (.back n.span.start)]⟩ := by
  obtain ⟨hspan, d, hstands⟩ := Program.stands_of_read h
  refine ⟨hspan, fun n hn => ?_⟩
  obtain ⟨c', d', hc', hpart, -⟩ := hstands.of_contains hn
  obtain ⟨text, hcovers, hread⟩ := hpart.read_text hc'
  obtain ⟨hstart, hstop⟩ := hcovers.bounds
  exact ⟨hstart, hstop, hpart.inside, hpart.spread_parts.pairwise, text, hcovers, hread⟩

/-- The parentheses belong to no span, and the blank before the second one to the operand. -/
theorem Program.spans_of_read_parenthesized :
    Program.read "(-\"é\" );" = .ok ⟨⟨0, 9⟩, [.expr ⟨0, 9⟩ (.unary ⟨1, 7⟩ .minus
      (.literal ⟨2, 6⟩ (.string "é")))]⟩ ∧
    Program.read "-\"é\" ;" = .ok ⟨⟨0, 7⟩, [.expr ⟨0, 7⟩ (.unary ⟨0, 6⟩ .minus
      (.literal ⟨1, 5⟩ (.string "é")))]⟩ := by
  have hquoted : (Token.quoted ['é']).Stands ⟨2, "\"é\" );".toList⟩ ⟨6, " );".toList⟩ :=
    ⟨rfl, rfl, trivial, rfl⟩
  have hspelled : Literal.Spelled (.string "é") (.quoted ['é']) := .string hquoted.valid
  have hminus : (UnaryOp.token .minus).Stands ⟨1, "-\"é\" );".toList⟩ ⟨2, "\"é\" );".toList⟩ :=
    ⟨trivial, rfl, Symbol.ends_of_extension rfl _, rfl⟩
  have hunary : Expr.Stands 7 (.unary ⟨1, 7⟩ .minus (.literal ⟨2, 6⟩ (.string "é")))
      ⟨1, "-\"é\" );".toList⟩ ⟨7, ");".toList⟩ :=
    .unary hminus (.plain (.inr rfl) (.first (by decide) (by decide) (by decide)
      (.literal hspelled hquoted)))
  have hclose : (Token.symbol .closeParen).Stands ⟨7, ");".toList⟩ ⟨8, ";".toList⟩ :=
    ⟨trivial, rfl, Symbol.ends_of_extension rfl _, rfl⟩
  have hopen : (Token.symbol .openParen).Stands ⟨0, "(-\"é\" );".toList⟩
      ⟨1, "-\"é\" );".toList⟩ :=
    ⟨trivial, rfl, Symbol.ends_of_extension rfl _, rfl⟩
  have hsemi : (Token.symbol .semicolon).Stands ⟨8, ";".toList⟩ ⟨9, []⟩ :=
    ⟨trivial, rfl, Symbol.ends_of_extension rfl _, rfl⟩
  obtain ⟨d, hinner, hd⟩ := hunary.weaken (Nat.zero_le 7) (by decide)
  obtain ⟨d', houter, hd'⟩ := (Expr.Stands.group hopen hinner (hclose.congr hd.symm)).weaken
    (Nat.zero_le 9) (Nat.le_refl 9)
  have hread := Program.read_of_stands (.cons (.expr houter (hsemi.congr hd'.symm)) .nil) rfl
  have hcontains : (Part.program ⟨⟨0, 9⟩, [.expr ⟨0, 9⟩ (.unary ⟨1, 7⟩ .minus
      (.literal ⟨2, 6⟩ (.string "é")))]⟩).Contains (.expr (.unary ⟨1, 7⟩ .minus
        (.literal ⟨2, 6⟩ (.string "é")))) :=
    .tail (.tail .refl (List.mem_singleton.2 rfl)) (List.mem_singleton.2 rfl)
  obtain ⟨-, hparts⟩ := Program.spans_of_read hread
  obtain ⟨-, -, -, -, text, hcovers, hexpr, -⟩ := hparts _ hcontains
  obtain rfl : text = "-\"é\" " := hcovers.unique ⟨"(", ");", rfl, rfl⟩
  exact ⟨hread, hexpr _ rfl⟩

end Scoped
