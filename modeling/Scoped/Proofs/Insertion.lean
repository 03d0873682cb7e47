import Scoped.Proofs.Tokenization

/-!
# Layout between tokens

Layout may be added to a script wherever it may stand : at the start, at the end, and between two
terminals (`Leaf.Cut`). What is added starts with a blank, so that it ends the token before it,
and closes its comments, so that it leaves the token after it alone. The script is then read as
before, up to spans (`Program.read_insert`).

Layout that is there already sets a limit. Between the slashes of a comment nothing can be added,
and in a comment a line break would set free what follows in it (`Layout.Allows`).
-/

namespace Scoped

open Grammar
open Layout (skip)

namespace Grammar

variable {c : Char} {cs ds rest w u v front back : List Char} {ls : List Leaf} {ts : List Token}

/-! ## Layout in layout -/

namespace Layout

/-- Blanks, and comments that end with their line. -/
inductive Closed : List Char → Prop
  | nil : Closed []
  | blank {c : Char} {w : List Char} (hc : isBlank c = true) (h : Closed w) : Closed (c :: w)
  | comment {body w : List Char} (hbody : '\n' ∉ body) (h : Closed w) :
    Closed ('/' :: '/' :: (body ++ '\n' :: w))

/-- The text `w` can be added to layout between `u` and `v`. This is not between the slashes of a
comment, and if it is in a comment, then `w` stays in its line or the line ends here. -/
def Allows (w u v : List Char) : Prop :=
  ∃ inComment, state? false u = some inComment ∧
    (inComment = true → '\n' ∈ w → v.head? = some '\n')

theorem state?_append_of_not_mem (h : '\n' ∉ cs) (ds : List Char) :
    state? true (cs ++ ds) = state? true ds := by
  induction cs with
  | nil => rfl
  | cons c cs ih =>
    have hne : (c != '\n') = true := by simpa using (List.ne_of_not_mem_cons h).symm
    rw [List.cons_append, state?, hne, ih (List.not_mem_of_not_mem_cons h)]

theorem Closed.state? (h : Closed w) : state? false w = some false := by
  induction h with
  | nil => rfl
  | blank hc _ ih => rw [state?_blank hc, ih]
  | comment hbody _ ih => exact (state?_append_of_not_mem hbody _).trans ih

/-- In a comment, closed layout stays in it or ends it. -/
theorem Closed.exists_state? (h : Closed w) : ∃ b, Layout.state? true w = some b := by
  induction h with
  | nil => exact ⟨true, rfl⟩
  | @blank c w _ h ih =>
    by_cases hc : c = '\n'
    · subst hc
      exact ⟨false, h.state?⟩
    · have hne : (c != '\n') = true := by simpa using hc
      rw [Layout.state?, hne]
      exact ih
  | @comment body w hbody h _ =>
    have hbody' : '\n' ∉ '/' :: '/' :: body := by simpa using hbody
    exact ⟨false, (state?_append_of_not_mem hbody' _).trans h.state?⟩

/-- Closed layout is nothing else, also in a comment. -/
theorem Closed.after_eq_nil (h : Closed w) (b : Bool) : after b w = [] := by
  obtain ⟨b', hb'⟩ : ∃ b', Layout.state? b w = some b' := by
    cases b with
    | false => exact ⟨false, h.state?⟩
    | true => exact h.exists_state?
  have hafter := after_append_of_state? hb' []
  rw [List.append_nil] at hafter
  rw [hafter]
  cases b' <;> rfl

/-- Layout reaches as far as before with text in it that it allows. -/
theorem skip_insert (hw : Closed w) (h : Allows w u v) (ds : List Char) :
    skip (u ++ (w ++ (v ++ ds))) = skip (u ++ (v ++ ds)) := by
  obtain ⟨b, hu, hline⟩ := h
  have hskip : ∀ cs, skip (u ++ cs) = after b cs := after_append_of_state? hu
  rw [hskip, hskip]
  cases b with
  | false => exact after_append_of_state? hw.state? _
  | true =>
    by_cases hmem : '\n' ∈ w
    · obtain ⟨v', rfl⟩ : ∃ v', v = '\n' :: v' := by
        cases v <;> simp_all
      obtain ⟨b, hb⟩ := hw.exists_state?
      rw [after_append_of_state? hb, List.cons_append, after_line, after_line]
    · have hstays := state?_append_of_not_mem hmem []
      rw [List.append_nil] at hstays
      exact after_append_of_state? hstays _

/-- What is not layout starts none with a blank behind some of it. -/
theorem skip_append_blank (h : skip (cs ++ rest) = cs ++ rest) (hcs : cs ≠ [])
    (hc : isBlank c = true) (ds : List Char) : skip (cs ++ c :: ds) = cs ++ c :: ds := by
  obtain ⟨d, cs, rfl⟩ := List.exists_cons_of_ne_nil hcs
  refine skip_cons (isBlank_of_skip h) ?_
  rintro rfl
  have hslash := head_ne_of_skip h
  cases cs with
  | nil =>
    rintro ⟨⟩
    cases hc
  | cons e cs => exact hslash

end Layout

/-! ## Places between tokens -/

namespace Leaf

/-- A place in the text of leaves : at its start, at its end, or between two terminals that follow
each other. The place is between `u` and `v`, the layout from the end of the terminal before it and
to the start of the one after it; `front` and `back` are the text up to there and from there. -/
inductive Cut (ls : List Leaf) : (front u v back : List Char) → Prop
  | start : Cut ls [] [] [] (textAll ls)
  | finish : Cut ls (textAll ls) [] [] []
  | between {before gap after : List Leaf} {x y : Terminal} {u v : List Char}
    (hls : ls = before ++ terminal x :: (gap ++ terminal y :: after))
    (hgap : ∀ l ∈ gap, l.terminal? = none) (huv : textAll gap = u ++ v) :
    Cut ls (textAll before ++ x.text) u v (y.text ++ textAll after)

theorem Tokens.eq_nil (h : Tokens ls ts rest) (hls : ∀ l ∈ ls, l.terminal? = none) : ts = [] := by
  induction h with
  | nil => rfl
  | layout _ _ _ ih => exact ih (List.forall_mem_cons.1 hls).2
  | terminal _ _ _ _ _ => cases (List.forall_mem_cons.1 hls).1

/-- Tokens are there with a blank behind some of the text that follows them. -/
theorem Tokens.append_blank (h : Tokens ls ts (cs ++ rest)) (hcs : cs ≠ []) (hc : isBlank c = true)
    (ds : List Char) : Tokens ls ts (cs ++ c :: ds) := by
  generalize hall : cs ++ rest = all at h
  induction h with
  | nil => exact .nil
  | @layout g _ ls ts hg hskip _ ih =>
    subst hall
    have hne : textAll ls ++ cs ≠ [] := List.append_ne_nil_of_right_ne_nil _ hcs
    have hgap : Layout.state? false g = some false :=
      Layout.state?_of_after_append hskip (by simp [hcs])
    have hstops : skip (textAll ls ++ cs ++ rest) = textAll ls ++ cs ++ rest := by
      rw [List.append_assoc, ← hskip, Layout.skip_skip]
    refine .layout hg ?_ (ih rfl)
    rw [← List.append_assoc (textAll ls), ← Layout.skip_append_blank hstops hne hc ds]
    exact (Layout.after_append_of_state? hgap _).trans (Layout.skip_skip _)
  | @terminal x _ t ls ts ht hx hends _ ih =>
    subst hall
    rw [← List.append_assoc] at hends
    refine .terminal ht hx ?_ (ih rfl)
    rw [← List.append_assoc]
    exact hends.append_blank hc ds

/-- Tokens are there with layout added between a terminal and what follows it. -/
theorem Tokens.lexes_insert {before gap after : List Leaf} {x : Terminal}
    (h : Tokens (before ++ .terminal x :: (gap ++ after)) ts [])
    (hgap : ∀ l ∈ gap, l.terminal? = none) (huv : textAll gap = u ++ v) (hc : isBlank c = true)
    (hw : Layout.Closed w) (hallows : Layout.Allows (c :: w) u v) :
    Lexes ts (textAll before ++ (x.text ++ (u ++ (c :: w ++ (v ++ textAll after))))) [] := by
  obtain ⟨ts₁, ts₂, rfl, hbefore, h⟩ := h.of_append
  cases h with
  | @terminal _ _ t _ ts₂ ht hx hends h =>
    obtain ⟨ts₃, ts₄, rfl, hlayout, hafter⟩ := h.of_append
    obtain rfl := hlayout.eq_nil hgap
    have htext : textAll (gap ++ after) ++ [] = u ++ (v ++ textAll after) := by simp [huv]
    rw [htext] at hends
    rw [textAll_terminal, List.append_assoc, htext, ← List.append_assoc] at hbefore
    -- the blank ends the token before it, and leaves those further on the left alone
    have hends := hends.append_blank hc (w ++ (v ++ textAll after))
    have hlex := (hbefore.append_blank (by simp [hx, Token.text_ne_nil ht]) hc
      (w ++ (v ++ textAll after))).lexes
    rw [List.append_assoc] at hlex
    have hskip : skip (textAll after ++ []) = skip (u ++ (c :: w ++ (v ++ textAll after))) := by
      rw [Layout.skip_insert (.blank hc hw) hallows, ← htext, textAll_append, List.append_assoc]
      exact hlayout.lexes.symm
    refine lexes_append.2 ⟨_, hlex, _, ?_, hends, hafter.lexes.congr hskip rfl⟩
    rw [hx]
    exact Token.skip_text ht hends

/-- Tokens are there with layout added in a place between them. -/
theorem Cut.lexes (hcut : Cut ls front u v back) (h : Tokens ls ts []) (hc : isBlank c = true)
    (hw : Layout.Closed w) (hallows : Layout.Allows (c :: w) u v) :
    Lexes ts (front ++ (u ++ (c :: w ++ (v ++ back)))) [] := by
  have hclosed : Layout.Closed (c :: w) := .blank hc hw
  have hlex := h.lexes
  rw [List.append_nil] at hlex
  cases hcut with
  | start => exact hlex.congr (Layout.after_append_of_state? hclosed.state? _).symm rfl
  | finish =>
    simp only [List.nil_append, List.append_nil]
    exact hlex.append_blank h.valid hc hclosed.after_eq_nil
  | between hls hgap huv =>
    subst hls
    rw [List.append_assoc]
    exact h.lexes_insert hgap huv hc hw hallows

/-- The first of some tokens is a terminal, after layout. -/
theorem Tokens.exists_terminal {t : Token} (h : Tokens ls (t :: ts) rest) :
    ∃ gap x after, ls = gap ++ .terminal x :: after ∧ (∀ l ∈ gap, l.terminal? = none) ∧
      x.text = t.text ∧ skip (textAll ls ++ rest) = t.text ++ (textAll after ++ rest) ∧
      Tokens after ts rest := by
  induction ls with
  | nil => cases h
  | cons l ls ih =>
    cases h with
    | @layout g _ _ _ hg hskip h =>
      obtain ⟨gap, x, after, rfl, hgap, hx, hfirst, hafter⟩ := ih h
      refine ⟨.layout g :: gap, x, after, rfl, List.forall_mem_cons.2 ⟨rfl, hgap⟩, hx, ?_, hafter⟩
      rw [textAll_layout, List.append_assoc, hskip, ← hfirst, ← hskip, Layout.skip_skip]
    | @terminal x _ _ _ _ ht hx hends h =>
      refine ⟨[], x, ls, rfl, by simp, hx, ?_, h⟩
      rw [textAll_terminal, hx, List.append_assoc, Token.skip_text ht hends]

end Leaf

end Grammar

/-- Layout between tokens does not matter. A script that can be read is read to the same program, up
to spans, with layout added at its start, at its end or between two terminals, if this starts with
a blank and closes its comments, and if the layout that is there already allows it. -/
theorem Program.read_insert {s : String} {p : Program} (h : Program.read s = .ok p) :
    ∃ ts, Program.matchScript s.toList = .ok ts ∧
      Leaf.textAll (Tree.unitsAll .script ts) = s.toList ∧
      ∀ front u v back, Leaf.Cut (Tree.unitsAll .script ts) front u v back →
        ∀ c w, isBlank c = true → Layout.Closed w → Layout.Allows (c :: w) u v →
          ∃ q, Program.read (String.ofList (front ++ (u ++ (c :: w ++ (v ++ back))))) = .ok q ∧
            q.erase = p.erase := by
  obtain ⟨ts, us, hmatch, htext, hus, hspelled⟩ := Program.tokens_of_read h
  refine ⟨ts, hmatch, htext, fun front u v back hcut c w hc hw hallows => ?_⟩
  have hlex := hcut.lexes hus hc hw hallows
  rw [← String.toList_ofList (l := front ++ _)] at hlex
  obtain ⟨q, hread, herase⟩ := Program.read_of_lexes hspelled hlex
  refine ⟨q, hread, herase.trans ?_⟩
  simp only [Program.erase, Stmt.eraseAll_eraseAll]

theorem Program.lexes_return : Lexes [.kwReturn, .symbol .semicolon] "return//true\n;".toList [] :=
  ⟨"//true\n;".toList, rfl, by rintro c ⟨⟩; rfl, [], rfl, Symbol.ends_of_extension rfl _, rfl⟩

/-- The places in the comment before the semicolon. -/
theorem Program.cut_return {ts : List Tree} {u v : List Char}
    (h : Program.matchScript "return//true\n;".toList = .ok ts) (huv : u ++ v = "//true\n".toList) :
    Leaf.Cut (Tree.unitsAll .script ts) "return".toList u v ";".toList := by
  have hvalid : Token.ValidAll [.kwReturn, .symbol .semicolon] :=
    .cons (Token.valid_keyword (by decide)) (.cons trivial .nil)
  obtain ⟨us, hus⟩ := Program.tokens_of_matchScript h
  have htext : Leaf.textAll (Tree.unitsAll .script ts) = "return//true\n;".toList := by
    rw [Tree.textAll_unitsAll, (Program.derives_of_matchScript h).2]
  generalize Tree.unitsAll .script ts = ls at hus htext ⊢
  have hlex := hus.lexes
  rw [htext, List.append_nil] at hlex
  obtain rfl := hlex.unique_all Program.lexes_return hus.valid hvalid
  -- the terminals one after the other, with what stands before and after them
  obtain ⟨before, x, more, rfl, -, hx, hfirst, hmore⟩ := hus.exists_terminal
  obtain ⟨gap, y, after, rfl, hgap, hy, hsecond, -⟩ := hmore.exists_terminal
  rw [htext, List.append_nil, List.append_nil] at hfirst
  have hrest : "//true\n;".toList = Leaf.textAll (gap ++ .terminal y :: after) :=
    List.append_cancel_left (show "return".toList ++ "//true\n;".toList = _ from hfirst)
  rw [← hrest, List.append_nil, List.append_nil] at hsecond
  have hafter : [] = Leaf.textAll after :=
    List.append_cancel_left (show ";".toList ++ [] = _ from hsecond)
  rw [Leaf.textAll_append, Leaf.textAll_terminal, hx, ← hrest] at htext
  rw [Leaf.textAll_append, Leaf.textAll_terminal, hy, ← hafter] at hrest
  have hbefore : Leaf.textAll before = [] := List.append_left_eq_self.1 htext
  have hlayout : "//true\n".toList = Leaf.textAll gap :=
    List.append_cancel_right (show "//true\n".toList ++ ";".toList = _ from hrest)
  have hcut : Leaf.Cut _ (Leaf.textAll before ++ x.text) u v (y.text ++ Leaf.textAll after) :=
    .between rfl hgap (hlayout.symm.trans huv.symm)
  rw [hbefore, hx, hy, ← hafter] at hcut
  exact hcut

/-- A comment and blanks before the comment, and a blank in it. -/
theorem Program.read_insert_return : ∃ p q₁ q₂, Program.read "return//true\n;" = .ok p ∧
    Program.read "return\t// a\n//true\n;" = .ok q₁ ∧ q₁.erase = p.erase ∧
    Program.read "return// true\n;" = .ok q₂ ∧ q₂.erase = p.erase := by
  have hspelled : Stmt.SpelledAll [.ret .nowhere none] _ := .cons .ret .nil
  obtain ⟨p, hread, -⟩ := Program.read_of_lexes (p := ⟨.nowhere, _⟩) hspelled Program.lexes_return
  obtain ⟨ts, hmatch, -, hinsert⟩ := Program.read_insert hread
  have hcomment : Layout.Closed "// a\n".toList :=
    @Layout.Closed.comment " a".toList [] (by decide) .nil
  obtain ⟨q₁, hread₁, herase₁⟩ := hinsert _ [] _ _ (Program.cut_return hmatch rfl) '\t' _ rfl
    hcomment ⟨false, rfl, by simp⟩
  obtain ⟨q₂, hread₂, herase₂⟩ := hinsert _ "//".toList "true\n".toList _
    (Program.cut_return hmatch rfl) ' ' _ rfl .nil ⟨true, rfl, by simp⟩
  exact ⟨p, q₁, q₂, hread, hread₁, herase₁, hread₂, herase₂⟩

/-- A line break in a comment sets free what follows in it. -/
theorem Program.read_insert_freed : ∃ p ts q, Program.read "return//true\n;" = .ok p ∧
    Program.matchScript "return//true\n;".toList = .ok ts ∧
    Leaf.Cut (Tree.unitsAll .script ts) "return".toList "//".toList "true\n".toList ";".toList ∧
    Program.read "return//\ntrue\n;" = .ok q ∧ q.erase ≠ p.erase := by
  have hspelled : Stmt.SpelledAll [.ret .nowhere none] _ := .cons .ret .nil
  obtain ⟨p, hread, hp⟩ := Program.read_of_lexes (p := ⟨.nowhere, _⟩) hspelled Program.lexes_return
  obtain ⟨ts, hmatch, -⟩ := bind_eq_ok.1 hread
  have hspelled' : Stmt.SpelledAll [.ret .nowhere (some (.literal .nowhere (.bool true)))] _ :=
    .cons (.retValue (.literal .true)) .nil
  have hlex : Lexes [.kwReturn, .kwTrue, .symbol .semicolon] "return//\ntrue\n;".toList [] :=
    ⟨"//\ntrue\n;".toList, rfl, by rintro c ⟨⟩; rfl, "\n;".toList, rfl, by rintro c ⟨⟩; rfl, [],
      rfl, Symbol.ends_of_extension rfl _, rfl⟩
  obtain ⟨q, hread', hq⟩ := Program.read_of_lexes (p := ⟨.nowhere, _⟩) hspelled' hlex
  refine ⟨p, ts, q, hread, hmatch, Program.cut_return hmatch rfl, hread', ?_⟩
  rw [hp, hq]
  simp [Program.erase, Stmt.eraseAll, Stmt.erase]

end Scoped
