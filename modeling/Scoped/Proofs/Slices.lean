import Scoped.Proofs.Completeness

/-!
# Slices of scripts

What stands somewhere in a script also stands in the slice that it covers, with every span shifted
back to the start of the slice. The slice may be followed by another text than in the script, its
*tail*, as long as no token and no layout goes on there. A statement is a script on its own
(`Stmt.Stands.read_slice`), and an expression is one with a semicolon after it
(`Expr.Stands.read_slice`), where the semicolon takes the place of something, so that no comment at
the end of the slice is open.
-/

namespace Scoped

open Grammar
open Grammar.Layout (skip)

/-! ## Programs at another place -/

/-- The span, counted from offset `n` on. -/
def Span.back (n : Nat) (s : Span) : Span := ⟨s.start - n, s.stop - n⟩

/-- The name, with another span. -/
def Ident.relocate (g : Span → Span) (x : Ident) : Ident := ⟨x.name, g x.span⟩

mutual

/-- The expression, with every span in it changed by `g`. -/
def Expr.relocate (g : Span → Span) : Expr → Expr
  | .literal span l => .literal (g span) l
  | .ident x => .ident (x.relocate g)
  | .assign span x e => .assign (g span) (x.relocate g) (e.relocate g)
  | .unary span op e => .unary (g span) op (e.relocate g)
  | .binary span op l r => .binary (g span) op (l.relocate g) (r.relocate g)
  | .logical span op l r => .logical (g span) op (l.relocate g) (r.relocate g)
  | .call span f args => .call (g span) (f.relocate g) (Expr.relocateAll g args)
  | .function f => .function (f.relocate g)

/-- The expressions, with every span in them changed by `g`. -/
def Expr.relocateAll (g : Span → Span) : List Expr → List Expr
  | [] => []
  | e :: es => e.relocate g :: Expr.relocateAll g es

/-- The statement, with every span in it changed by `g`. -/
def Stmt.relocate (g : Span → Span) : Stmt → Stmt
  | .expr span e => .expr (g span) (e.relocate g)
  | .print span e => .print (g span) (e.relocate g)
  | .ret span none => .ret (g span) none
  | .ret span (some e) => .ret (g span) (some (e.relocate g))
  | .block span body => .block (g span) (Stmt.relocateAll g body)
  | .bind span x none => .bind (g span) (x.relocate g) none
  | .bind span x (some e) => .bind (g span) (x.relocate g) (some (e.relocate g))
  | .function f => .function (f.relocate g)
  | .cond span e a none => .cond (g span) (e.relocate g) (a.relocate g) none
  | .cond span e a (some b) => .cond (g span) (e.relocate g) (a.relocate g) (some (b.relocate g))

/-- The statements, with every span in them changed by `g`. -/
def Stmt.relocateAll (g : Span → Span) : List Stmt → List Stmt
  | [] => []
  | s :: ss => s.relocate g :: Stmt.relocateAll g ss

/-- The function, with every span in it changed by `g`. -/
def FunctionDef.relocate (g : Span → Span) : FunctionDef → FunctionDef
  | .mk span id params bodySpan body => .mk (g span) (id.map (Ident.relocate g))
      (params.map (Ident.relocate g)) (g bodySpan) (Stmt.relocateAll g body)

end

variable {g : Span → Span}

theorem FunctionDef.span_relocate (f : FunctionDef) : (f.relocate g).span = g f.span := by
  cases f
  rfl

theorem FunctionDef.id_relocate (f : FunctionDef) :
    (f.relocate g).id = f.id.map (Ident.relocate g) := by
  cases f
  rfl

theorem Connective.relocate_join (o : Connective) (span : Span) (l r : Expr) :
    (o.join span l r).relocate g = o.join (g span) (l.relocate g) (r.relocate g) := by
  cases o <;> rfl

theorem Stmt.isOpen_relocate : ∀ s : Stmt, (s.relocate g).isOpen = s.isOpen
  | .expr _ _ | .print _ _ | .block _ _ | .function _ => rfl
  | .ret _ none | .ret _ (some _) | .bind _ _ none | .bind _ _ (some _) => rfl
  | .cond _ _ _ none => rfl
  | .cond _ _ _ (some b) => b.isOpen_relocate

/-! ## Cuts -/

namespace Grammar

/-- A stretch of a script starts at an offset, and what follows it gives way to a tail. -/
structure Cut where
  start : Nat
  rest : List Char
  tail : List Char
  /-- No token goes on with the tail. -/
  ends : ∀ t : Token, t.Ends tail
  /-- Layout before the rest ends before the tail. -/
  closes : ∀ gap, skip (gap ++ rest) = rest → skip (gap ++ tail) = tail

namespace Cut

variable {cut : Cut} {c d m : Place} {u : List Char}

theorem digits_eq_nil (h : digits (u ++ cut.rest) = []) : digits (u ++ cut.tail) = [] := by
  cases u with
  | nil => exact cut.ends (.decimal [] [])
  | cons x u =>
    rw [digits_eq_nil_iff] at h ⊢
    exact h

theorem fraction?_eq_none (h : fraction? (u ++ cut.rest) = none) :
    fraction? (u ++ cut.tail) = none := by
  cases u with
  | nil => exact (cut.ends (.integer [])).2
  | cons x u =>
    by_cases hx : x = '.'
    · subst hx
      have hdigits : digits (u ++ cut.rest) = [] := by
        by_contra hne
        simp [fraction?, hne] at h
      rw [List.cons_append, fraction?, if_pos (digits_eq_nil hdigits)]
    · exact fraction?_cons_of_ne hx _

theorem token_ends {t : Token} (h : t.Ends (u ++ cut.rest)) : t.Ends (u ++ cut.tail) := by
  cases u with
  | nil => exact cut.ends t
  | cons x u =>
    cases t with
    | integer ds => exact ⟨digits_eq_nil h.1, fraction?_eq_none h.2⟩
    | decimal ds fs => exact digits_eq_nil h
    | word w | quoted raw | symbol s => exact h

/-- Layout is followed by the same text, up to the end of the stretch. -/
theorem skip_append {gap : List Char} (h : skip (gap ++ (u ++ cut.rest)) = u ++ cut.rest) :
    skip (gap ++ (u ++ cut.tail)) = u ++ cut.tail := by
  cases u with
  | nil => exact cut.closes gap h
  | cons x u =>
    have hstate := Layout.state?_of_after_append h (List.cons_ne_nil x _)
    have hskip : skip (x :: (u ++ cut.rest)) = x :: (u ++ cut.rest) :=
      (Layout.after_append_of_state? hstate _).symm.trans h
    have hcomment : x = '/' → (u ++ cut.tail).head? ≠ some '/' := by
      rintro rfl
      have hne := Layout.head_ne_of_skip hskip
      cases u with
      | nil => exact cut.ends (.symbol .div) '/' rfl
      | cons y u => exact hne
    exact (Layout.after_append_of_state? hstate _).trans
      (Layout.skip_cons (Layout.isBlank_of_skip hskip) hcomment)

/-- The place in the slice that a place in the script becomes. -/
def slide (cut : Cut) (c : Place) : Place :=
  ⟨c.offset - cut.start, c.rest.take (c.rest.length - cut.rest.length) ++ cut.tail⟩

theorem slide_eq (h : c.rest = u ++ cut.rest) :
    cut.slide c = ⟨c.offset - cut.start, u ++ cut.tail⟩ := by
  simp [slide, h]

theorem rest_slide (h : c.rest = u ++ cut.rest) : (cut.slide c).rest = u ++ cut.tail :=
  congrArg Place.rest (slide_eq h)

/-- The place is in the stretch. -/
structure Holds (cut : Cut) (c : Place) : Prop where
  start_le : cut.start ≤ c.offset
  exists_append : ∃ u, c.rest = u ++ cut.rest

theorem Holds.between (hc : cut.Holds c) (hd : cut.Holds d) (hcm : c ≤ m) (hmd : m ≤ d) :
    cut.Holds m := by
  refine ⟨hc.start_le.trans (Place.offset_le hcm), ?_⟩
  obtain ⟨v, hv⟩ := hd.exists_append
  obtain ⟨u, hu, -⟩ := hmd
  exact ⟨u ++ v, by rw [hu, hv, List.append_assoc]⟩

/-- Layout in the stretch is layout in the slice. -/
theorem Holds.skip_slide (hc : cut.Holds c) (hskip : cut.Holds c.skip) :
    (cut.slide c).skip = cut.slide c.skip := by
  obtain ⟨u, hu⟩ := hskip.exists_append
  have hrest : c.rest = (Layout.split c.rest).1 ++ u ++ cut.rest := by
    rw [List.append_assoc, ← hu]
    exact (Layout.split_append c.rest).symm
  have hgap : skip ((Layout.split c.rest).1 ++ (u ++ cut.rest)) = u ++ cut.rest := by
    rw [← List.append_assoc, ← hrest, ← hu, Place.rest_skip]
  have hslide : (cut.slide c).rest = (Layout.split c.rest).1 ++ (u ++ cut.tail) := by
    rw [rest_slide hrest, List.append_assoc]
  have hoffset : c.offset - cut.start + utf8Size (Layout.split c.rest).1 =
      c.offset + utf8Size (Layout.split c.rest).1 - cut.start := by
    have hstart := hc.start_le
    omega
  rw [Place.skip, hslide, Place.split_of_skip (skip_append hgap), ← rest_slide hu]
  exact congrArg (Place.mk · _) hoffset

theorem Holds.upTo_slide (hc : cut.Holds c) (hd : cut.Holds d) (h : c.skip ≤ d) :
    (cut.slide c).upTo (cut.slide d) = (c.upTo d).back cut.start := by
  rw [Place.upTo, hc.skip_slide (hc.between hd c.le_skip h)]
  rfl

end Cut

variable {cut : Cut} {c d : Place}

theorem Token.Stands.slide {t : Token} (h : t.Stands c d) (hc : cut.Holds c) (hd : cut.Holds d) :
    t.Stands (cut.slide c) (cut.slide d) := by
  have hskip := hc.between hd c.le_skip h.skip_le
  obtain ⟨u, hu⟩ := hd.exists_append
  have hrest : c.skip.rest = t.text ++ u ++ cut.rest := by
    rw [h.text, hu, List.append_assoc]
  have hstart := hskip.start_le
  have hoffset := h.offset
  refine ⟨h.valid, ?_, ?_, ?_⟩
  · rw [hc.skip_slide hskip, Cut.rest_slide hrest, Cut.rest_slide hu, List.append_assoc]
  · rw [Cut.rest_slide hu]
    exact Cut.token_ends (hu ▸ h.ends)
  · rw [hc.skip_slide hskip]
    show d.offset - cut.start = c.skip.offset - cut.start + utf8Size t.text
    omega

end Grammar

/-! ## What stands in the stretch stands in the slice -/

variable {cut : Cut} {c d : Place}

theorem Ident.Stands.slide {x : Ident} (h : x.Stands c d) (hc : cut.Holds c) (hd : cut.Holds d) :
    (x.relocate (.back cut.start)).Stands (cut.slide c) (cut.slide d) := by
  refine ⟨h.wellFormed, h.token.slide hc hd, ?_⟩
  rw [hc.upTo_slide hd h.token.skip_le, ← h.span]
  rfl

theorem Ident.StandsMore.slide {xs : List Ident} (h : Ident.StandsMore xs c d) (hc : cut.Holds c)
    (hd : cut.Holds d) : Ident.StandsMore (xs.map (Ident.relocate (.back cut.start)))
      (cut.slide c) (cut.slide d) := by
  induction h with
  | nil => exact .nil
  | cons hcomma hx hxs ih =>
    have hm' := hc.between hd (hcomma.le.trans hx.le) hxs.le
    have hm := hc.between hm' hcomma.le hx.le
    exact .cons (hcomma.slide hc hm) (hx.slide hm hm') (ih hm' hd)

theorem Ident.StandsAll.slide {xs : List Ident} (h : Ident.StandsAll xs c d) (hc : cut.Holds c)
    (hd : cut.Holds d) : Ident.StandsAll (xs.map (Ident.relocate (.back cut.start)))
      (cut.slide c) (cut.slide d) := by
  cases h with
  | nil => exact .nil
  | cons hx hxs =>
    have hm := hc.between hd hx.le hxs.le
    exact .cons (hx.slide hc hm) (hxs.slide hm hd)

mutual

theorem Expr.Stands.slide : ∀ {k : Nat} {e : Expr} {c d : Place}, e.Stands k c d → cut.Holds c →
    cut.Holds d → (e.relocate (.back cut.start)).Stands k (cut.slide c) (cut.slide d)
  | _, _, _, _, .literal hl ht, hc, hd => by
    rw [Expr.relocate, ← hc.upTo_slide hd ht.skip_le]
    exact .literal hl (ht.slide hc hd)
  | _, _, _, _, .ident hx, hc, hd => .ident (hx.slide hc hd)
  | _, _, _, _, @Expr.Stands.function f c m d hid hspan hfn hf, hc, hd => by
    have hm := hc.between hd hfn.le hf.le
    refine .function ?_ ?_ (hfn.slide hc hm) (hf.slide hm hd)
    · rw [f.id_relocate, hid]
      rfl
    · rw [f.span_relocate, hspan, hc.upTo_slide hd (hfn.skip_le.trans hf.le)]
  | _, _, _, _, .group ho he hclose, hc, hd => by
    have hm' := hc.between hd (ho.le.trans he.le) hclose.le
    have hm := hc.between hm' ho.le he.le
    exact .group (ho.slide hc hm) (he.slide hm hm') (hclose.slide hm' hd)
  | _, _, _, _, .call hf ho hargs hclose, hc, hd => by
    have hm₂ := hc.between hd (hf.le.trans (ho.le.trans hargs.le)) hclose.le
    have hm₁ := hc.between hm₂ (hf.le.trans ho.le) hargs.le
    have hm := hc.between hm₁ hf.le ho.le
    rw [Expr.relocate, ← hc.upTo_slide hd (Expr.Stands.call hf ho hargs hclose).skip_le]
    exact .call (hf.slide hc hm) (ho.slide hm hm₁) (hargs.slide hm₁ hm₂) (hclose.slide hm₂ hd)
  | _, _, _, _, .unary hop he, hc, hd => by
    have hm := hc.between hd hop.le he.le
    rw [Expr.relocate, ← hc.upTo_slide hd (hop.skip_le.trans he.le)]
    exact .unary (hop.slide hc hm) (he.slide hm hd)
  | _, _, _, _, @Expr.Stands.joined o l r c m m' d hl ho hr, hc, hd => by
    have hm' := hc.between hd (hl.le.trans ho.le) hr.le
    have hm := hc.between hm' hl.le ho.le
    rw [o.relocate_join, ← hc.upTo_slide hd (hl.skip_le.trans (ho.le.trans hr.le))]
    exact .joined (hl.slide hc hm) (ho.slide hm hm') (hr.slide hm' hd)
  | _, _, _, _, .assign hx ha he, hc, hd => by
    have hm' := hc.between hd (hx.le.trans ha.le) he.le
    have hm := hc.between hm' hx.le ha.le
    rw [Expr.relocate, ← hc.upTo_slide hd (hx.token.skip_le.trans (ha.le.trans he.le))]
    exact .assign (hx.slide hc hm) (ha.slide hm hm') (he.slide hm' hd)
  | _, _, _, _, @Expr.Stands.first k e c d hk hzero hseven he, hc, hd => by
    have hm := hc.between hd he.le d.le_skip
    rw [← hm.skip_slide hd]
    exact .first hk hzero hseven (he.slide hc hm)
  | _, _, _, _, .plain hk he, hc, hd => .plain hk (he.slide hc hd)

theorem Expr.StandsMore.slide : ∀ {es : List Expr} {c d : Place}, Expr.StandsMore es c d →
    cut.Holds c → cut.Holds d →
    Expr.StandsMore (Expr.relocateAll (.back cut.start) es) (cut.slide c) (cut.slide d)
  | _, _, _, .nil, _, _ => .nil
  | _, _, _, .cons hcomma he hes, hc, hd => by
    have hm' := hc.between hd (hcomma.le.trans he.le) hes.le
    have hm := hc.between hm' hcomma.le he.le
    exact .cons (hcomma.slide hc hm) (he.slide hm hm') (hes.slide hm' hd)

theorem Expr.StandsAll.slide : ∀ {es : List Expr} {c d : Place}, Expr.StandsAll es c d →
    cut.Holds c → cut.Holds d →
    Expr.StandsAll (Expr.relocateAll (.back cut.start) es) (cut.slide c) (cut.slide d)
  | _, _, _, .nil, _, _ => .nil
  | _, _, _, .cons he hes, hc, hd => by
    have hm := hc.between hd he.le hes.le
    exact .cons (he.slide hc hm) (hes.slide hm hd)

theorem Stmt.Stands.slide : ∀ {s : Stmt} {c d : Place}, s.Stands c d → cut.Holds c →
    cut.Holds d → (s.relocate (.back cut.start)).Stands (cut.slide c) (cut.slide d)
  | _, _, _, .expr he hsemi, hc, hd => by
    have hm := hc.between hd he.le hsemi.le
    rw [Stmt.relocate, ← hc.upTo_slide hd (he.skip_le.trans hsemi.le)]
    exact .expr (he.slide hc hm) (hsemi.slide hm hd)
  | _, _, _, .print hkw he hsemi, hc, hd => by
    have hm' := hc.between hd (hkw.le.trans he.le) hsemi.le
    have hm := hc.between hm' hkw.le he.le
    rw [Stmt.relocate, ← hc.upTo_slide hd (hkw.skip_le.trans (he.le.trans hsemi.le))]
    exact .print (hkw.slide hc hm) (he.slide hm hm') (hsemi.slide hm' hd)
  | _, _, _, .ret hkw hsemi, hc, hd => by
    have hm := hc.between hd hkw.le hsemi.le
    rw [Stmt.relocate, ← hc.upTo_slide hd (hkw.skip_le.trans hsemi.le)]
    exact .ret (hkw.slide hc hm) (hsemi.slide hm hd)
  | _, _, _, .retValue hkw he hsemi, hc, hd => by
    have hm' := hc.between hd (hkw.le.trans he.le) hsemi.le
    have hm := hc.between hm' hkw.le he.le
    rw [Stmt.relocate, ← hc.upTo_slide hd (hkw.skip_le.trans (he.le.trans hsemi.le))]
    exact .retValue (hkw.slide hc hm) (he.slide hm hm') (hsemi.slide hm' hd)
  | _, _, _, .block hbody, hc, hd => by
    rw [Stmt.relocate, ← hc.upTo_slide hd hbody.skip_le]
    exact .block (hbody.slide hc hd)
  | _, _, _, .bind hkw hx hsemi, hc, hd => by
    have hm' := hc.between hd (hkw.le.trans hx.le) hsemi.le
    have hm := hc.between hm' hkw.le hx.le
    rw [Stmt.relocate, ← hc.upTo_slide hd (hkw.skip_le.trans (hx.le.trans hsemi.le))]
    exact .bind (hkw.slide hc hm) (hx.slide hm hm') (hsemi.slide hm' hd)
  | _, _, _, .bindValue hkw hx ha he hsemi, hc, hd => by
    have hm₃ := hc.between hd (hkw.le.trans (hx.le.trans (ha.le.trans he.le))) hsemi.le
    have hm₂ := hc.between hm₃ (hkw.le.trans (hx.le.trans ha.le)) he.le
    have hm₁ := hc.between hm₂ (hkw.le.trans hx.le) ha.le
    have hm := hc.between hm₁ hkw.le hx.le
    rw [Stmt.relocate, ← hc.upTo_slide hd (Stmt.Stands.bindValue hkw hx ha he hsemi).skip_le]
    exact .bindValue (hkw.slide hc hm) (hx.slide hm hm₁) (ha.slide hm₁ hm₂) (he.slide hm₂ hm₃)
      (hsemi.slide hm₃ hd)
  | _, _, _, @Stmt.Stands.function f x c m m' d hid hspan hkw hx hf, hc, hd => by
    have hm' := hc.between hd (hkw.le.trans hx.le) hf.le
    have hm := hc.between hm' hkw.le hx.le
    refine .function ?_ ?_ (hkw.slide hc hm) (hx.slide hm hm') (hf.slide hm' hd)
    · rw [f.id_relocate, hid]
      rfl
    · rw [f.span_relocate, hspan, hc.upTo_slide hd (hkw.skip_le.trans (hx.le.trans hf.le))]
  | _, _, _, @Stmt.Stands.cond e a c m m₁ m₂ m₃ d hkw ho he hclose ha, hc, hd => by
    have hthen := hkw.le.trans (ho.le.trans (he.le.trans hclose.le))
    have hm₄ := hc.between hd (hthen.trans ha.le) d.le_skip
    have hm₃ := hc.between hm₄ hthen ha.le
    have hm₂ := hc.between hm₃ (hkw.le.trans (ho.le.trans he.le)) hclose.le
    have hm₁ := hc.between hm₂ (hkw.le.trans ho.le) he.le
    have hm := hc.between hm₁ hkw.le ho.le
    rw [Stmt.relocate, ← hc.upTo_slide hd (Stmt.Stands.cond hkw ho he hclose ha).skip_le,
      ← hm₄.skip_slide hd]
    exact .cond (hkw.slide hc hm) (ho.slide hm hm₁) (he.slide hm₁ hm₂) (hclose.slide hm₂ hm₃)
      (ha.slide hm₃ hm₄)
  | _, _, _, @Stmt.Stands.condElse e a b c m m₁ m₂ m₃ m₄ m₅ d hkw ho he hclose ha hopen helse hb,
      hc, hd => by
    have hthen := hkw.le.trans (ho.le.trans (he.le.trans hclose.le))
    have hm₅ := hc.between hd (hthen.trans (ha.le.trans helse.le)) hb.le
    have hm₄ := hc.between hm₅ (hthen.trans ha.le) helse.le
    have hm₃ := hc.between hm₄ hthen ha.le
    have hm₂ := hc.between hm₃ (hkw.le.trans (ho.le.trans he.le)) hclose.le
    have hm₁ := hc.between hm₂ (hkw.le.trans ho.le) he.le
    have hm := hc.between hm₁ hkw.le ho.le
    rw [Stmt.relocate,
      ← hc.upTo_slide hd (Stmt.Stands.condElse hkw ho he hclose ha hopen helse hb).skip_le]
    exact .condElse (hkw.slide hc hm) (ho.slide hm hm₁) (he.slide hm₁ hm₂) (hclose.slide hm₂ hm₃)
      (ha.slide hm₃ hm₄) (a.isOpen_relocate.trans hopen) (helse.slide hm₄ hm₅) (hb.slide hm₅ hd)

theorem Stmt.StandsAll.slide : ∀ {ss : List Stmt} {c d : Place}, Stmt.StandsAll ss c d →
    cut.Holds c → cut.Holds d →
    Stmt.StandsAll (Stmt.relocateAll (.back cut.start) ss) (cut.slide c) (cut.slide d)
  | _, _, _, .nil, _, _ => .nil
  | _, _, _, .cons hs hss, hc, hd => by
    have hm := hc.between hd hs.le hss.le
    exact .cons (hs.slide hc hm) (hss.slide hm hd)

theorem Stmt.Braced.slide : ∀ {body : List Stmt} {c d : Place}, Stmt.Braced body c d →
    cut.Holds c → cut.Holds d →
    Stmt.Braced (Stmt.relocateAll (.back cut.start) body) (cut.slide c) (cut.slide d)
  | _, _, _, .mk ho hbody hclose, hc, hd => by
    have hm' := hc.between hd (ho.le.trans hbody.le) hclose.le
    have hm := hc.between hm' ho.le hbody.le
    exact .mk (ho.slide hc hm) (hbody.slide hm hm') (hclose.slide hm' hd)

theorem FunctionDef.Stands.slide : ∀ {f : FunctionDef} {c d : Place}, f.Stands c d →
    cut.Holds c → cut.Holds d →
    (f.relocate (.back cut.start)).Stands (cut.slide c) (cut.slide d)
  | _, _, _, .mk ho hparams hclose hbody, hc, hd => by
    have hm'' := hc.between hd (ho.le.trans (hparams.le.trans hclose.le)) hbody.le
    have hm' := hc.between hm'' (ho.le.trans hparams.le) hclose.le
    have hm := hc.between hm' ho.le hparams.le
    rw [FunctionDef.relocate, ← hm''.upTo_slide hd hbody.skip_le]
    exact .mk (ho.slide hc hm) (hparams.slide hm hm') (hclose.slide hm' hm'') (hbody.slide hm'' hd)

end

/-! ## Slices are scripts -/

theorem Grammar.Token.ends_semicolon (t : Token) : t.Ends [';'] := by
  cases t with
  | word w => exact fun c hc => by cases hc; rfl
  | integer ds => exact ⟨rfl, rfl⟩
  | decimal ds fs => rfl
  | quoted raw => trivial
  | symbol s => cases s <;> simp [Token.Ends, Symbol.extension?]

/-- A slice that nothing is put after. -/
def Grammar.Cut.bare (start : Nat) (rest : List Char) : Cut where
  start := start
  rest := rest
  tail := []
  ends := Token.ends_nil
  closes _ h := by
    by_cases hrest : rest = []
    · rw [hrest] at h
      exact h
    · exact Layout.after_append_of_state? (Layout.state?_of_after_append h hrest) []

/-- A slice with a semicolon after it, for something that stands there in the script. -/
def Grammar.Cut.closed (start : Nat) (rest : List Char) (hrest : rest ≠ []) : Cut where
  start := start
  rest := rest
  tail := [';']
  ends := Token.ends_semicolon
  closes _ h := Layout.after_append_of_state? (Layout.state?_of_after_append h hrest) [';']

variable {e : Expr} {s : Stmt} {k : Nat} {text : List Char}

/-- A statement is a script on its own. -/
theorem Stmt.Stands.read_slice (h : s.Stands c d) (htext : c.rest = text ++ d.rest)
    (hd : d.offset = c.offset + utf8Size text) : Program.read (String.ofList text) =
      .ok ⟨⟨0, utf8Size text⟩, [s.relocate (.back c.offset)]⟩ := by
  let cut := Cut.bare c.offset d.rest
  have hholds : cut.Holds c := ⟨Nat.le_refl _, text, htext⟩
  have hle : c.offset ≤ d.offset := hd ▸ Nat.le_add_right _ _
  have hslide : (s.relocate (.back c.offset)).Stands (cut.slide c) (cut.slide d) :=
    h.slide hholds ⟨hle, [], rfl⟩
  have hstart : cut.slide c = ⟨0, (String.ofList text).toList⟩ := by
    rw [Cut.slide_eq htext, String.toList_ofList]
    simp [cut, Cut.bare]
  rw [hstart] at hslide
  have hend : (cut.slide d).rest = [] := Cut.rest_slide (u := []) rfl
  have hread := Program.read_of_stands (.cons hslide .nil) (by rw [hend]; rfl)
  rw [hread, String.toList_ofList]

/-- An expression is a script with a semicolon after it. -/
theorem Expr.Stands.read_slice (h : e.Stands k c d) (hk : k ≤ 9) (hc : c.skip = c)
    (hrest : d.rest ≠ []) (htext : c.rest = text ++ d.rest)
    (hd : d.offset = c.offset + utf8Size text) :
    Program.read (String.ofList (text ++ [';'])) = .ok ⟨⟨0, utf8Size text + 1⟩,
      [.expr ⟨0, utf8Size text + 1⟩ (e.relocate (.back c.offset))]⟩ := by
  let cut := Cut.closed c.offset d.rest hrest
  have hholds : cut.Holds c := ⟨Nat.le_refl _, text, htext⟩
  have hle : c.offset ≤ d.offset := hd ▸ Nat.le_add_right _ _
  have hslide : (e.relocate (.back c.offset)).Stands k (cut.slide c) (cut.slide d) :=
    h.slide hholds ⟨hle, [], rfl⟩
  have hskip : (cut.slide c).skip = cut.slide c := by
    rw [hholds.skip_slide (hc.symm ▸ hholds), hc]
  have hstart : cut.slide c = ⟨0, (String.ofList (text ++ [';'])).toList⟩ := by
    rw [Cut.slide_eq htext, String.toList_ofList]
    simp [cut, Cut.closed]
  have hstop : cut.slide d = ⟨utf8Size text, [';']⟩ := by
    rw [Cut.slide_eq (u := []) rfl]
    simp [cut, Cut.closed, hd]
  have hsemi : (Token.symbol .semicolon).Stands (cut.slide d) ⟨utf8Size text + 1, []⟩ := by
    rw [hstop]
    exact ⟨trivial, rfl, Token.ends_nil _, rfl⟩
  obtain ⟨d', hweak, hd'⟩ := hslide.weaken (Nat.zero_le k) hk
  have hstmt := Stmt.Stands.expr hweak (hsemi.congr hd'.symm)
  rw [Place.upTo, hskip, hstart] at hstmt
  have hread := Program.read_of_stands (.cons hstmt .nil) rfl
  rw [hread, String.toList_ofList, utf8Size_append]
  rfl

end Scoped
