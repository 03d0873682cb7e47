import Scoped.Proofs.Faithfulness
import Scoped.Proofs.Soundness

/-!
# The terminals of a match are tokens

A match of a rule without gaps between its parts is one terminal, and any other text that was
matched is one. `Tree.unitsAll` lists these terminals and the layout between them. They are the
tokens of the script (`Leaf.Tokens`) : each of them ends where it cannot go on, and layout reaches
up to the next of them.

That a token ends is seen in the grammar. Words, numerals and strings end by their own rules, or
by the lookahead before a reserved word. Symbols that a second character would prolong stand where
the next part does not start with that character. `Pattern.settles` checks this of a pattern, and
`Pattern.Matches.tokens` is the proof that the check suffices, by induction over the match.
-/

namespace Scoped

open Grammar
open Layout (skip)

namespace Grammar

open Pattern

variable {owner : Rule} {cs mid rest : List Char} {ls ms : List Leaf} {ts us : List Token}

/-! ## Units -/

/-- A match of the rule is one terminal. -/
def Rule.isWhole (r : Rule) : Bool := r.kind = .atomic || r.kind = .compound

namespace Tree

mutual

/-- The terminals and the layout of a tree, in order, in a node of rule `owner`. -/
def units : (owner : Rule) → Tree → List Leaf
  | _, layout t => [.layout t]
  | owner, terminal t => [.terminal ⟨owner, t⟩]
  | _, node r ts => if r.isWhole then [.terminal ⟨r, textAll ts⟩] else unitsAll r ts

/-- The terminals and the layout of a forest, in order, in a node of rule `owner`. -/
def unitsAll : (owner : Rule) → List Tree → List Leaf
  | _, [] => []
  | owner, t :: ts => t.units owner ++ unitsAll owner ts

end

theorem unitsAll_append {ts us : List Tree} :
    unitsAll owner (ts ++ us) = unitsAll owner ts ++ unitsAll owner us := by
  induction ts with
  | nil => rfl
  | cons t ts ih => rw [List.cons_append, unitsAll, unitsAll, ih, List.append_assoc]

/-- What a match of a rule without gaps leaves in the tree is one terminal. -/
theorem unitsAll_wrap {r : Rule} (hr : r.isWhole = true) (ts : List Tree) :
    unitsAll owner (r.wrap ts) = [.terminal ⟨r, textAll ts⟩] := by
  have hnode : ∀ us, unitsAll owner [node r us] = [.terminal ⟨r, textAll us⟩] := fun us => by
    rw [unitsAll, unitsAll, units, if_pos hr, List.append_nil]
  simp only [Rule.isWhole, Bool.or_eq_true, decide_eq_true_eq] at hr
  obtain hr | hr := hr
  · rw [r.wrap_atomic hr, hnode, textAll_cons, text_terminal, textAll_nil, List.append_nil]
  · rw [r.wrap_node (.inr hr), hnode]

/-- What a match of any other rule leaves are the units of its parts. -/
theorem exists_unitsAll_wrap (owner : Rule) {r : Rule} (hr : r.isWhole = false) (ts : List Tree) :
    ∃ owner', unitsAll owner (r.wrap ts) = unitsAll owner' ts := by
  cases hkind : r.kind with
  | silent => exact ⟨owner, by rw [r.wrap_silent hkind]⟩
  | normal =>
    refine ⟨r, ?_⟩
    rw [r.wrap_node (.inl hkind), unitsAll, unitsAll, units, if_neg (by simp [hr]), List.append_nil]
  | atomic => simp [Rule.isWhole, hkind] at hr
  | compound => simp [Rule.isWhole, hkind] at hr

end Tree

/-- The characters of leaves. -/
def Leaf.textAll (ls : List Leaf) : List Char := ls.flatMap Leaf.text

namespace Leaf

@[simp]
theorem textAll_nil : textAll [] = [] := rfl

@[simp]
theorem textAll_layout (g : List Char) (ls : List Leaf) :
    textAll (layout g :: ls) = g ++ textAll ls := rfl

@[simp]
theorem textAll_terminal (x : Terminal) (ls : List Leaf) :
    textAll (terminal x :: ls) = x.text ++ textAll ls := rfl

@[simp]
theorem textAll_append (ls ms : List Leaf) : textAll (ls ++ ms) = textAll ls ++ textAll ms :=
  List.flatMap_append

end Leaf

namespace Tree

mutual

theorem textAll_units : ∀ (owner : Rule) (t : Tree), Leaf.textAll (t.units owner) = t.text
  | _, layout t => by simp [units]
  | _, terminal t => by simp [units]
  | _, node r ts => by
    rw [units]
    split
    · simp
    · rw [textAll_unitsAll r ts, text_node]

/-- The units of a forest are all its characters, in order. -/
theorem textAll_unitsAll : ∀ (owner : Rule) (ts : List Tree),
    Leaf.textAll (unitsAll owner ts) = textAll ts
  | _, [] => rfl
  | owner, t :: ts => by
    rw [unitsAll, Leaf.textAll_append, textAll_units owner t, textAll_unitsAll owner ts,
      textAll_cons]

end

end Tree

theorem Gap.rest_layout (cs : List Char) : (Gap.layout.split cs).2 = Layout.skip cs :=
  Gap.skip_layout cs

/-! ## Leaves that are tokens -/

/-- The leaves are tokens, each of which ends where the next leaf starts, and layout, which reaches
up to what is none. `rest` is the text after them. -/
inductive Leaf.Tokens : List Leaf → List Token → List Char → Prop
  | nil {rest : List Char} : Tokens [] [] rest
  | layout {g rest : List Char} {ls : List Leaf} {ts : List Token} (hg : g ≠ [])
    (hskip : skip (g ++ (textAll ls ++ rest)) = textAll ls ++ rest) (h : Tokens ls ts rest) :
    Tokens (.layout g :: ls) ts rest
  | terminal {x : Terminal} {rest : List Char} {t : Token} {ls : List Leaf} {ts : List Token}
    (ht : t.Valid) (hx : x.text = t.text) (hends : t.Ends (textAll ls ++ rest))
    (h : Tokens ls ts rest) : Tokens (.terminal x :: ls) (t :: ts) rest

namespace Leaf.Tokens

theorem append (hls : Tokens ls ts (textAll ms ++ rest)) (hms : Tokens ms us rest) :
    Tokens (ls ++ ms) (ts ++ us) rest := by
  induction ls generalizing ts with
  | nil =>
    cases hls
    exact hms
  | cons l ls ih =>
    have htext : textAll (ls ++ ms) ++ rest = textAll ls ++ (textAll ms ++ rest) := by simp
    rw [List.cons_append]
    cases hls with
    | layout hg hskip h => exact .layout hg (by rw [htext]; exact hskip) (ih h)
    | terminal ht hx hends h => exact .terminal ht hx (by rw [htext]; exact hends) (ih h)

theorem of_append (h : Tokens (ls ++ ms) us rest) : ∃ ts ts', us = ts ++ ts' ∧
    Tokens ls ts (textAll ms ++ rest) ∧ Tokens ms ts' rest := by
  induction ls generalizing us with
  | nil => exact ⟨[], us, rfl, .nil, h⟩
  | cons l ls ih =>
    have htext : textAll (ls ++ ms) ++ rest = textAll ls ++ (textAll ms ++ rest) := by simp
    rw [List.cons_append] at h
    cases h with
    | layout hg hskip h =>
      obtain ⟨ts, ts', rfl, hls, hms⟩ := ih h
      exact ⟨ts, ts', rfl, .layout hg (by rw [← htext]; exact hskip) hls, hms⟩
    | terminal ht hx hends h =>
      obtain ⟨ts, ts', rfl, hls, hms⟩ := ih h
      exact ⟨_ :: ts, ts', rfl, .terminal ht hx (by rw [← htext]; exact hends) hls, hms⟩

theorem valid (h : Tokens ls ts rest) : Token.ValidAll ts := by
  induction h with
  | nil => exact .nil
  | layout _ _ _ ih => exact ih
  | terminal ht _ _ _ ih => exact .cons ht ih

/-- The leaves are read as the tokens. -/
theorem lexes (h : Tokens ls ts rest) : Lexes ts (textAll ls ++ rest) rest := by
  induction h with
  | nil => exact rfl
  | layout _ hskip _ ih =>
    refine ih.congr ?_ rfl
    rw [textAll_layout, List.append_assoc, hskip, ← hskip, Layout.skip_skip]
  | @terminal x rest t ls ts ht hx hends _ ih =>
    refine ⟨textAll ls ++ rest, ?_, hends, ih⟩
    rw [textAll_terminal, hx, List.append_assoc, Token.skip_text ht hends]

/-- Leaves, the layout after them and further leaves. -/
theorem append_gap (hls : Tokens ls ts mid) (hms : Tokens ms us rest)
    (htext : textAll ms ++ rest = skip mid) :
    Tokens (ls ++ (Tree.unitsAll owner (Gap.tree (Layout.split mid).1) ++ ms)) (ts ++ us) rest := by
  have hmid : (Layout.split mid).1 ++ (textAll ms ++ rest) = mid := by
    rw [htext, ← Gap.rest_layout]
    exact Layout.split_append mid
  have hgap : Tokens (Tree.unitsAll owner (Gap.tree (Layout.split mid).1) ++ ms) us rest := by
    cases hg : (Layout.split mid).1 with
    | nil => exact hms
    | cons c cs =>
      have hskip : skip (c :: cs ++ (textAll ms ++ rest)) = textAll ms ++ rest := by
        rw [← hg, hmid, htext]
      exact .layout (List.cons_ne_nil c cs) hskip hms
  refine append ?_ hgap
  rw [textAll_append, Tree.textAll_unitsAll, Tree.textAll_gap, List.append_assoc, hmid]
  exact hls

end Leaf.Tokens

/-! ## Patterns that end their tokens -/

namespace Symbol

/-- The symbols. -/
def all : List Symbol :=
  [openParen, closeParen, openBrace, closeBrace, comma, semicolon, assign, eq, ne, lt, le, gt, ge,
   add, sub, mul, div, rem, not]

/-- The symbol that is written so. -/
def ofChars? (cs : List Char) : Option Symbol := all.find? (·.chars = cs)

theorem chars_of_ofChars? {s : Symbol} (h : ofChars? cs = some s) : s.chars = cs := by
  simpa using List.find?_some h

end Symbol

namespace Rule

/-- The word that the rule matches, if it matches one only. -/
def word? : Rule → Option (List Char)
  | kwLet => some ['l', 'e', 't']
  | kwFn => some ['f', 'n']
  | kwReturn => some ['r', 'e', 't', 'u', 'r', 'n']
  | kwPrint => some ['p', 'r', 'i', 'n', 't']
  | kwIf => some ['i', 'f']
  | kwElse => some ['e', 'l', 's', 'e']
  | orOperator => some ['o', 'r']
  | andOperator => some ['a', 'n', 'd']
  | nilLiteral => some ['n', 'i', 'l']
  | _ => none

theorem isWord_of_word? {r : Rule} {k : List Char} (h : r.word? = some k) : r.IsWord k := by
  cases r <;> cases h
  · exact isWord_let
  · exact isWord_fn
  · exact isWord_return
  · exact isWord_print
  · exact isWord_if
  · exact isWord_else
  · exact isWord_or
  · exact isWord_and
  · exact isWord_nil

/-- The rule matches one token, wherever it matches. -/
def isToken : Rule → Bool
  | identifier | orOperator | andOperator | nilLiteral | booleanLiteral | numericLiteral
  | stringLiteral => true
  | _ => false

/-- The parts of the rule are tokens, with layout between them. -/
def isPhrase (r : Rule) : Bool := !r.isWhole && r ∉ [whitespace, comment, identChar]

theorem isWhole_of_isToken {r : Rule} (h : r.isToken = true) : r.isWhole = true := by
  cases r <;> first | rfl | cases h

theorem isWhole_of_isPhrase {r : Rule} (h : r.isPhrase = true) : r.isWhole = false := by
  simpa using (Bool.and_eq_true_iff.1 h).1

/-- The rule matches symbols that an equality sign would prolong. -/
def isOpen (r : Rule) : Bool := r = relationalOperator || r = unaryOperator

end Rule

namespace Pattern

/-- The pattern does not match at an equality sign. -/
def blocks : Pattern → Bool
  | rule r => r.rejects Rule.topRank (some '=')
  | _ => false

/-- The word that the text starts with where the pattern matches. -/
def reveals : Pattern → Option (List Char)
  | ahead (rule r) => r.word?
  | _ => none

/-- A check that what the pattern matches are tokens that end. The text is known to start with the
word `known`, and `closed` says that no equality sign follows the match. -/
def settles : (known : Option (List Char)) → (closed : Bool) → Pattern → Bool
  | _, _, empty | _, _, finish | _, _, ahead _ | _, _, notAhead _ => true
  | known, closed, text t =>
    known = some t || (Symbol.ofChars? t).any fun s => s.extension? ≠ some '=' || closed
  | _, _, char _ => false
  | known, closed, seq gap p q =>
    gap = .layout && p.settles known q.blocks && q.settles p.reveals closed
  | known, closed, alt p q => p.settles known closed && q.settles known closed
  | _, _, many gap p => gap = .layout && p.settles none false
  | _, closed, rule r => r.isToken || r.isPhrase && (closed || !r.isOpen)

end Pattern

/-- The grammar ends its tokens. -/
theorem Rule.settles_body {r : Rule} (h : r.isPhrase = true) :
    r.body.settles none r.isOpen = true := by
  revert h
  cases r <;> decide

/-! ## Matches are tokens -/

theorem Rule.Takes.ends {r : Rule} {t : Token} {n : Node} {y : Yield} {rest' : List Char}
    (hr : r.Takes t n) (hlex : Lexes [t] cs rest') (hcs : skip cs = cs)
    (h : r.parse cs = some (y, rest)) : cs = t.text ++ rest ∧ t.Ends rest := by
  obtain ⟨mid, hmid, hends, -⟩ := hlex
  rw [hcs] at hmid
  rw [hmid, hr mid hends] at h
  cases h
  exact ⟨hmid, hends⟩

/-- A rule for one token matches one. -/
theorem Rule.exists_token {r : Rule} {y : Yield} (hr : r.isToken = true) (hcs : skip cs = cs)
    (h : r.parse cs = some (y, rest)) :
    ∃ t : Token, t.Valid ∧ cs = t.text ++ rest ∧ t.Ends rest := by
  have hreads : (rule r).Reads cs y.nodes rest := ⟨y, rest, by rw [hcs]; exact h, rfl, rfl⟩
  have hword : ∀ {k}, r.word? = some k →
      ∃ t : Token, t.Valid ∧ cs = t.text ++ rest ∧ t.Ends rest := by
    intro k hk
    have hr := isWord_of_word? hk
    exact ⟨.word k, hr.valid, hr.takes.ends (hr.reads.1 hreads).1 hcs h⟩
  cases r with
  | identifier =>
    obtain ⟨w, hw, hlex, -⟩ := reads_identifier.1 hreads
    exact ⟨.word w, ⟨hw.1, hw.2.1⟩, (takes_identifier hw).ends hlex hcs h⟩
  | booleanLiteral =>
    obtain ⟨w, hw, hlex, -⟩ := reads_booleanLiteral.1 hreads
    have hkeyword : ∀ w ∈ [['t', 'r', 'u', 'e'], ['f', 'a', 'l', 's', 'e']], w ∈ keywords := by
      decide
    exact ⟨.word w, Token.valid_keyword (hkeyword w hw), (takes_booleanLiteral hw).ends hlex hcs h⟩
  | numericLiteral =>
    obtain ⟨t, hn, ht, hlex, -⟩ := reads_numericLiteral.1 hreads
    exact ⟨t, ht, (takes_numericLiteral hn ht).ends hlex hcs h⟩
  | stringLiteral =>
    obtain ⟨raw, hraw, hlex, -⟩ := reads_stringLiteral.1 hreads
    exact ⟨.quoted raw, hraw, (takes_stringLiteral hraw).ends hlex hcs h⟩
  | orOperator | andOperator | nilLiteral => exact hword rfl
  | _ => cases hr

namespace Pattern

variable {p q : Pattern} {parts : List Tree}

theorem Matches.head?_of_blocks (h : q.Matches (skip mid) parts rest) (hq : q.blocks = true) :
    mid.head? ≠ some '=' := by
  cases q with
  | rule r =>
    cases h with
    | rule hparse _ => exact ends_assign hq ⟨_, _, hparse, rfl, rfl⟩
  | _ => cases hq

theorem Matches.word_of_reveals (h : p.Matches cs parts mid) (hcs : skip cs = cs) :
    ∀ k ∈ p.reveals, (Token.word k).Valid ∧ Grammar.word (skip mid) = k := by
  intro k hk
  cases h with
  | @ahead p _ hp =>
    cases p with
    | rule r =>
      have hr : r.IsWord k := Rule.isWord_of_word? hk
      refine ⟨hr.valid, not_not.1 fun hne => hp ?_⟩
      rw [← hcs]
      exact hr.fails.2 hne
    | _ => cases hk
  | _ => cases hk

/-- A text that the check lets through is a token. -/
theorem exists_token_of_settles {t : List Char} {known : Option (List Char)} {closed : Bool}
    (h : (text t).settles known closed = true) (hskip : skip (t ++ rest) = t ++ rest)
    (hknown : ∀ k ∈ known, (Token.word k).Valid ∧ Grammar.word (t ++ rest) = k)
    (hclosed : closed = true → rest.head? ≠ some '=') :
    ∃ u : Token, u.Valid ∧ u.text = t ∧ u.Ends rest := by
  simp only [settles, Bool.or_eq_true, decide_eq_true_eq, Option.any_eq_true] at h
  obtain hk | ⟨s, hs, hext⟩ := h
  · obtain ⟨hvalid, hword⟩ := hknown t hk
    have hafter := word_append_afterWord (t ++ rest)
    rw [hword] at hafter
    refine ⟨.word t, hvalid, rfl, ?_⟩
    rw [← List.append_cancel_left hafter]
    exact wordEnds_afterWord _
  · obtain rfl := Symbol.chars_of_ofChars? hs
    refine ⟨.symbol s, trivial, rfl, fun c hc => ?_⟩
    -- what goes on with a slash would be a comment
    obtain rfl | hc' : c = '=' ∨ s = .div ∧ c = '/' := by cases s <;> cases hc <;> simp
    · exact hclosed (hext.resolve_left (not_not.2 hc))
    · obtain ⟨rfl, rfl⟩ := hc'
      exact Layout.head_ne_of_skip hskip

/-- Tokens, and after layout the tokens of what is matched next. -/
theorem Matches.tokens_append {before : List Tree} (h : q.Matches (skip mid) parts rest)
    (hbefore : Leaf.Tokens (Tree.unitsAll owner before) ts mid)
    (hparts : Leaf.Tokens (Tree.unitsAll owner parts) us rest) :
    Leaf.Tokens (Tree.unitsAll owner (before ++ (Gap.tree (Gap.layout.split mid).1 ++ parts)))
      (ts ++ us) rest := by
  rw [Tree.unitsAll_append, Tree.unitsAll_append]
  exact hbefore.append_gap hparts (by rw [Tree.textAll_unitsAll, h.text_append])

/-- What the matcher finds for a pattern that the check lets through are tokens. The induction is
over the match : a part of a sequence is told by the part before it which word it starts with, and
by the part after it that no equality sign follows. -/
theorem Matches.tokens (h : p.Matches cs parts rest) : ∀ (owner : Rule) (known : Option (List Char))
    (closed : Bool), p.settles known closed = true → skip cs = cs →
    (∀ k ∈ known, (Token.word k).Valid ∧ Grammar.word cs = k) →
    (closed = true → rest.head? ≠ some '=') →
    ∃ us, Leaf.Tokens (Tree.unitsAll owner parts) us rest := by
  induction h with
  | empty | finish | manyNone | ahead | notAhead => exact fun _ _ _ _ _ _ _ => ⟨[], .nil⟩
  | text t =>
    intro owner known closed hsettles hskip hknown hclosed
    obtain ⟨u, hu, rfl, hends⟩ := exists_token_of_settles hsettles hskip hknown hclosed
    exact ⟨[u], .terminal hu rfl hends .nil⟩
  | char => intro _ _ _ hsettles; cases hsettles
  | @seq gap p q us vs cs mid rest hp hq ihp ihq =>
    intro owner known closed hsettles hskip hknown hclosed
    simp only [settles, Bool.and_eq_true, decide_eq_true_eq] at hsettles
    obtain ⟨⟨rfl, hsettlesp⟩, hsettlesq⟩ := hsettles
    rw [Gap.rest_layout] at hq ihq
    obtain ⟨ts₁, h₁⟩ := ihp owner known q.blocks hsettlesp hskip hknown hq.head?_of_blocks
    obtain ⟨ts₂, h₂⟩ := ihq owner p.reveals closed hsettlesq (Layout.skip_skip mid)
      (hp.word_of_reveals hskip) hclosed
    exact ⟨ts₁ ++ ts₂, hq.tokens_append h₁ h₂⟩
  | altLeft _ ih =>
    intro owner known closed hsettles
    exact ih owner known closed (Bool.and_eq_true_iff.1 hsettles).1
  | altRight _ ih =>
    intro owner known closed hsettles
    exact ih owner known closed (Bool.and_eq_true_iff.1 hsettles).2
  | manyOne _ ih =>
    intro owner known closed hsettles hskip _ _
    exact ih owner none false (Bool.and_eq_true_iff.1 hsettles).2 hskip (by simp) (by simp)
  | @manyMore gap p us vs cs mid rest hmany _ hp ihmany ih =>
    intro owner known closed hsettles hskip _ _
    obtain ⟨ts₁, h₁⟩ := ihmany owner none false hsettles hskip (by simp) (by simp)
    simp only [settles, Bool.and_eq_true, decide_eq_true_eq] at hsettles
    obtain ⟨rfl, hsettles⟩ := hsettles
    rw [Gap.rest_layout] at hp ih
    obtain ⟨ts₂, h₂⟩ := ih owner none false hsettles (Layout.skip_skip mid) (by simp) (by simp)
    exact ⟨ts₁ ++ ts₂, hp.tokens_append h₁ h₂⟩
  | @rule r parts cs rest hparse h ih =>
    intro owner known closed hsettles hskip _ hclosed
    simp only [settles, Bool.or_eq_true, Bool.and_eq_true] at hsettles
    obtain htoken | ⟨hphrase, hopen⟩ := hsettles
    · obtain ⟨t, ht, hcs, hends⟩ := Rule.exists_token htoken hskip hparse
      have htext : Tree.textAll parts = t.text :=
        List.append_cancel_right (h.text_append.trans hcs)
      rw [Tree.unitsAll_wrap (Rule.isWhole_of_isToken htoken)]
      exact ⟨[t], .terminal ht htext hends .nil⟩
    · have hbody := Rule.settles_body hphrase
      have hopen' : r.isOpen = true → rest.head? ≠ some '=' := by
        intro hr
        rw [hr] at hopen
        exact hclosed (by simpa using hopen)
      obtain ⟨owner', howner⟩ :=
        Tree.exists_unitsAll_wrap owner (Rule.isWhole_of_isPhrase hphrase) parts
      rw [howner]
      exact ih owner' none r.isOpen hbody hskip (by simp) hopen'

end Pattern

end Grammar

/-! ## Scripts -/

/-- The units of the match of a script are tokens. -/
theorem Program.tokens_of_matchScript {cs : List Char} {ts : List Tree}
    (h : Program.matchScript cs = .ok ts) :
    ∃ us, Leaf.Tokens (Tree.unitsAll .script ts) us [] := by
  obtain ⟨parts, hbody, rfl⟩ := (Program.matches_of_matchScript h).of_rule
  obtain ⟨owner, howner⟩ := Tree.exists_unitsAll_wrap .script (r := .script) rfl parts
  rw [howner]
  -- layout in front of the first statement is skipped after nothing
  cases hbody with
  | @seq _ _ _ _ vs _ mid _ hempty hstatements =>
    cases hempty
    rw [Gap.rest_layout] at hstatements
    obtain ⟨us, hus⟩ := hstatements.tokens owner none false (by decide) (Layout.skip_skip cs)
      (by simp) (by simp)
    have hnothing : Leaf.Tokens (Tree.unitsAll owner []) [] cs := .nil
    exact ⟨us, hstatements.tokens_append hnothing hus⟩

/-- A script that can be read is made of terminals that are tokens and layout between them, and
the tokens spell its program. -/
theorem Program.tokens_of_read {s : String} {p : Program} (h : Program.read s = .ok p) :
    ∃ ts us, Program.matchScript s.toList = .ok ts ∧
      Leaf.textAll (Tree.unitsAll .script ts) = s.toList ∧
      Leaf.Tokens (Tree.unitsAll .script ts) us [] ∧ Stmt.SpelledAll p.erase.body us := by
  obtain ⟨ts, hmatch, -⟩ := bind_eq_ok.1 h
  obtain ⟨us, hus⟩ := Program.tokens_of_matchScript hmatch
  obtain ⟨us', hspelled, hlex'⟩ := Program.lexes_of_read h
  have htext : Leaf.textAll (Tree.unitsAll .script ts) = s.toList := by
    rw [Tree.textAll_unitsAll, (Program.derives_of_matchScript hmatch).2]
  have hlex : Lexes us s.toList [] := by
    have hlex := hus.lexes
    rwa [htext, List.append_nil] at hlex
  obtain rfl := hlex.unique_all hlex' hus.valid hspelled.valid
  exact ⟨ts, us, hmatch, htext, hus, hspelled⟩

end Scoped
