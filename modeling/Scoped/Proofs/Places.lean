import Mathlib.Order.Basic
import Scoped.Proofs.Constructs

/-!
# Places in a script

A place is an offset and the text that follows it. `Pattern.Locates p c ns d` says that the
pattern, after the layout at `c`, matches exactly up to `d`, and which nodes the match leaves, with
their spans. It says more than `Pattern.Reads` : where a match ends, and whether the layout after it
belongs to it, shows in the spans of the nodes around it. A part that may be missing takes the
layout before it along even where it is missing (`Locates.optional_none`), while a further part of a
repetition gives it back (`Pattern.More.nil`).
-/

namespace Scoped.Grammar

/-- An offset, and the text from there on. -/
structure Place where
  offset : Nat
  rest : List Char

namespace Place

variable {c d : Place}

/-- The place after the layout that stands here. -/
def skip (c : Place) : Place :=
  ⟨c.offset + utf8Size (Layout.split c.rest).1, (Layout.split c.rest).2⟩

@[simp]
theorem rest_skip (c : Place) : c.skip.rest = Layout.skip c.rest :=
  Layout.scan_after [] false c.rest

theorem split_of_skip {gap cs : List Char} (h : Layout.skip (gap ++ cs) = cs) :
    Layout.split (gap ++ cs) = (gap, cs) := by
  have hrest : (Layout.split (gap ++ cs)).2 = cs := (Layout.scan_after [] false _).trans h
  have happend := Layout.split_append (gap ++ cs)
  rw [hrest] at happend
  exact Prod.ext (List.append_cancel_right happend) hrest

@[simp]
theorem skip_skip (c : Place) : c.skip.skip = c.skip := by
  have hsplit : Layout.split ([] ++ Layout.skip c.rest) = ([], Layout.skip c.rest) :=
    split_of_skip (Layout.skip_skip c.rest)
  rw [skip, rest_skip, ← List.nil_append (Layout.skip c.rest), hsplit, utf8Size_nil, Nat.add_zero,
    ← rest_skip]

theorem skip_rest (h : c.skip = d.skip) : Layout.skip c.rest = Layout.skip d.rest := by
  rw [← rest_skip, h, rest_skip]

/-- The stretch from the first character after layout to another place. -/
def upTo (c d : Place) : Span := ⟨c.skip.offset, d.offset⟩

@[simp]
theorem upTo_skip (c d : Place) : c.skip.upTo d = c.upTo d := by
  rw [upTo, skip_skip, upTo]

/-- One place comes before another one, or is the same. -/
instance : Preorder Place where
  le c d := ∃ u, c.rest = u ++ d.rest ∧ d.offset = c.offset + utf8Size u
  le_refl c := ⟨[], rfl, rfl⟩
  le_trans c d e := by
    rintro ⟨u, hu, hd⟩ ⟨v, hv, he⟩
    exact ⟨u ++ v, by rw [hu, hv, List.append_assoc],
      by rw [he, hd, utf8Size_append, Nat.add_assoc]⟩

theorem le_skip (c : Place) : c ≤ c.skip :=
  ⟨(Layout.split c.rest).1, (Layout.split_append c.rest).symm, rfl⟩

theorem offset_le (h : c ≤ d) : c.offset ≤ d.offset := by
  obtain ⟨u, -, hd⟩ := h
  omega

end Place

variable {p q : Pattern} {c c' d m : Place} {ns ms : List Node}

/-! ## Located forests -/

namespace Tree

/-- The forest at offset `a` has these nodes, and ends at `b`. -/
def Spans (ts : List Tree) (a : Nat) (ns : List Node) (b : Nat) : Prop :=
  (locateFrom [] [] a ts).nodes = ns ∧ (locateFrom [] [] a ts).stop = b

/-- What stands before a forest is handed on. -/
theorem locateFrom_eq (ts : List Tree) (nodes : List Node) (text : List Char) (pos : Nat) :
    locateFrom nodes text pos ts = ⟨nodes.reverse ++ (locateFrom [] [] pos ts).nodes,
      text.reverse ++ (locateFrom [] [] pos ts).text, (locateFrom [] [] pos ts).stop⟩ := by
  induction ts generalizing nodes text pos with
  | nil => simp [locateFrom]
  | cons t ts ih =>
    cases t with
    | layout t =>
      rw [locateFrom, locateFrom]
      exact ih nodes text _
    | terminal t =>
      rw [locateFrom, locateFrom, ih nodes, ih [] (t.reverseAux [])]
      simp [List.reverseAux_eq]
    | node r parts =>
      rw [locateFrom, locateFrom, ih (_ :: nodes) text, ih [_] []]
      simp

theorem locateFrom_append (ts us : List Tree) (nodes : List Node) (text : List Char) (pos : Nat) :
    locateFrom nodes text pos (ts ++ us) = locateFrom (locateFrom nodes text pos ts).nodes.reverse
      (locateFrom nodes text pos ts).text.reverse (locateFrom nodes text pos ts).stop us := by
  fun_induction locateFrom nodes text pos ts with
  | case1 nodes text pos => simp
  | case2 nodes text pos t ts ih | case3 nodes text pos t ts ih =>
    rw [List.cons_append, locateFrom, ih]
  | case4 nodes text pos r parts ts inner ihInner ih => rw [List.cons_append, locateFrom, ih]

theorem Spans.append {ts us : List Tree} {a b e : Nat} (hts : Spans ts a ns b)
    (hus : Spans us b ms e) : Spans (ts ++ us) a (ns ++ ms) e := by
  obtain ⟨rfl, rfl⟩ := hts
  obtain ⟨rfl, rfl⟩ := hus
  unfold Spans
  rw [locateFrom_append, locateFrom_eq us]
  simp

theorem spans_nil (a : Nat) : Spans [] a [] a := by
  simp [Spans, locateFrom]

theorem spans_gap (cs : List Char) (a : Nat) : Spans (Gap.tree cs) a [] (a + utf8Size cs) := by
  cases cs <;> simp [Spans, Gap.tree, locateFrom]

theorem spans_terminal (t : List Char) (a : Nat) : Spans [.terminal t] a [] (a + utf8Size t) := by
  simp [Spans, locateFrom]

/-- A rule that leaves a node covers its parts. -/
theorem Spans.node {ts : List Tree} {a b : Nat} (h : Spans ts a ns b) (r : Rule) :
    ∃ text, Spans [.node r ts] a [⟨r, ⟨a, b⟩, text, ns⟩] b := by
  obtain ⟨rfl, rfl⟩ := h
  exact ⟨(locateFrom [] [] a ts).text, by simp [Spans, locateFrom]⟩

/-- A forest ends after its characters. -/
theorem stop_locateFrom (ts : List Tree) (nodes : List Node) (text : List Char) (pos : Nat) :
    (locateFrom nodes text pos ts).stop = pos + utf8Size (textAll ts) := by
  fun_induction locateFrom nodes text pos ts with
  | case1 nodes text pos => simp
  | case2 nodes text pos t ts ih | case3 nodes text pos t ts ih =>
    rw [ih, textAll_cons, utf8Size_append, ← Nat.add_assoc]
    simp
  | case4 nodes text pos r parts ts inner ihInner ih =>
    rw [ih, textAll_cons, utf8Size_append, text_node, ← Nat.add_assoc]
    exact congrArg (· + utf8Size (textAll ts)) ihInner

end Tree

theorem Rule.wrap_of_ne_silent {r : Rule} (hr : r.kind ≠ .silent) (ts : List Tree) :
    ∃ us, r.wrap ts = [.node r us] := by
  unfold Rule.wrap
  cases hkind : r.kind with
  | silent => exact absurd hkind hr
  | atomic | normal | compound => exact ⟨_, rfl⟩

/-! ## Matches at a place -/

namespace Pattern

/-- After the layout at `c` the pattern matches, up to `d`, and leaves these nodes. -/
def Locates (p : Pattern) (c : Place) (ns : List Node) (d : Place) : Prop :=
  ∀ k, p.Ranked k → ∃ ts, p.Finds c.skip.rest (some (ts, d.rest)) ∧
    Tree.Spans ts c.skip.offset ns d.offset

theorem Locates.congr (h : p.Locates c ns d) (hc : c.skip = c'.skip) : p.Locates c' ns d := by
  unfold Locates at h ⊢
  rw [← hc]
  exact h

theorem Fails.finds {k : Nat} (h : p.Fails c.rest) (hr : p.Ranked k) :
    p.Finds c.skip.rest none := by
  obtain ⟨o, hfinds⟩ : ∃ o, p.Finds c.skip.rest o := ⟨_, p.finds_run k hr c.skip.rest⟩
  have hparse := hfinds.parse_eq
  rw [Place.rest_skip, show p.parse (Layout.skip c.rest) = none from h] at hparse
  rwa [Option.map_eq_none_iff.1 hparse.symm] at hfinds

theorem Locates.seq (hp : p.Locates c ns m) (hq : q.Locates m ms d) :
    (Pattern.seq .layout p q).Locates c (ns ++ ms) d := by
  intro k hr
  obtain ⟨ts, hp, hspans⟩ := hp k hr.1
  obtain ⟨us, hq, hspans'⟩ := hq _ hr.2
  have hfinds : (Pattern.seq .layout p q).Finds c.skip.rest _ := .seq hp hq
  exact ⟨_, hfinds, hspans.append ((Tree.spans_gap _ _).append hspans')⟩

theorem Locates.alt_left (h : p.Locates c ns d) : (alt p q).Locates c ns d := by
  intro k hr
  obtain ⟨ts, hfinds, hspans⟩ := h k hr.1
  exact ⟨ts, .altLeft hfinds, hspans⟩

theorem Locates.alt_right (hp : p.Fails c.rest) (hq : q.Locates c ns d) :
    (alt p q).Locates c ns d := by
  intro k hr
  obtain ⟨ts, hfinds, hspans⟩ := hq k hr.2
  exact ⟨ts, .altRight (hp.finds hr.1) hfinds, hspans⟩

theorem Locates.choice_last {ps : List Pattern} (hps : ∀ q ∈ ps, q.Fails c.rest)
    (h : p.Locates c ns d) : (choice ps p).Locates c ns d := by
  induction ps with
  | nil => exact h
  | cons q ps ih =>
    obtain ⟨hq, hps⟩ := List.forall_mem_cons.1 hps
    exact .alt_right hq (ih hps)

theorem Locates.choice {ps qs : List Pattern} {last : Pattern} (hps : ∀ q ∈ ps, q.Fails c.rest)
    (h : p.Locates c ns d) : (choice (ps ++ p :: qs) last).Locates c ns d := by
  have happend : Pattern.choice (ps ++ p :: qs) last = Pattern.choice ps (.alt p
      (Pattern.choice qs last)) := List.foldr_append
  rw [happend]
  exact .choice_last hps (.alt_left h)

theorem locates_empty (c : Place) : empty.Locates c [] c.skip := fun _ _ =>
  ⟨[], .empty _, Tree.spans_nil _⟩

theorem locates_text {t : List Char} (h : c.skip.rest = t ++ d.rest)
    (hd : d.offset = c.skip.offset + utf8Size t) : (text t).Locates c [] d := by
  intro k hr
  have hfinds := Finds.text t c.skip.rest
  rw [stripText_eq_some_iff.2 h] at hfinds
  exact ⟨_, hfinds, by rw [hd]; exact Tree.spans_terminal _ _⟩

theorem Locates.optional_some (h : p.Locates c ns d) : (optional p).Locates c ns d := h.alt_left

/-- Where an optional part is missing, the layout before it is taken. -/
theorem Locates.optional_none (h : p.Fails c.rest) : (optional p).Locates c [] c.skip :=
  .alt_right h (locates_empty c)

theorem Locates.ahead (h : ¬p.Fails c.rest) : (Pattern.ahead p).Locates c [] c.skip := by
  intro k hr
  obtain ⟨o, hfinds⟩ : ∃ o, p.Finds c.skip.rest o := ⟨_, p.finds_run k hr c.skip.rest⟩
  cases o with
  | none =>
    have hparse := hfinds.parse_eq
    rw [Place.rest_skip] at hparse
    exact absurd hparse h
  | some m => exact ⟨_, .ahead hfinds, Tree.spans_nil _⟩

/-! ## Repetitions -/

/-- The pattern is matched as often as it can be. -/
inductive More (p : Pattern) : Place → List Node → Place → Prop
  | nil {c : Place} : p.Fails c.rest → More p c [] c
  | cons {c m d : Place} {ns ms : List Node} : p.Locates c ns m → More p m ms d →
    More p c (ns ++ ms) d

/-- What is repeated after a first match. -/
theorem More.finds (h : p.More c ns d) {k : Nat} (hc : p.consumes = true) (hr : p.Ranked k) :
    ∃ ts, (Pattern.many .none (Gap.layout.item p)).Finds c.rest (some (ts, d.rest)) ∧
      Tree.Spans ts c.offset ns d.offset := by
  induction h with
  | @nil c hf =>
    have hitem : (Gap.layout.item p).Finds c.rest _ := Finds.item (hf.finds hr)
    exact ⟨[], .manyNone hitem, Tree.spans_nil _⟩
  | cons hp _ ih =>
    obtain ⟨ts, hfinds, hspans⟩ := hp k hr
    obtain ⟨us, hmany, hspans'⟩ := ih
    have hitem : (Gap.layout.item p).Finds _ _ := Finds.item hfinds
    exact ⟨_, .many (Gap.layout.consumes_item hc) hitem hmany,
      ((Tree.spans_gap _ _).append hspans).append hspans'⟩

theorem locates_many_none (h : p.Fails c.rest) : (many .layout p).Locates c [] c.skip :=
  fun _ hr => ⟨[], .manyNone (h.finds hr.2), Tree.spans_nil _⟩

theorem Locates.many (hp : p.Locates c ns m) (h : p.More m ms d) :
    (many .layout p).Locates c (ns ++ ms) d := by
  intro k hr
  obtain ⟨ts, hfinds, hspans⟩ := hp k hr.2
  obtain ⟨us, hmany, hspans'⟩ := h.finds hr.1 hr.2
  exact ⟨_, .many hr.1 hfinds hmany, hspans.append hspans'⟩

/-- The end of a repetition, up to layout. -/
theorem More.many (h : p.More c ns d) :
    ∃ d', (Pattern.many .layout p).Locates c ns d' ∧ d'.skip = d.skip := by
  cases h with
  | nil hf => exact ⟨_, locates_many_none hf, c.skip_skip⟩
  | cons hp h => exact ⟨_, hp.many h, rfl⟩

/-- The pattern is matched some times, and may go on to be matched. -/
inductive Further (p : Pattern) : Place → List Node → Place → Prop
  | nil {c : Place} : Further p c [] c.skip
  | snoc {c m d : Place} {ns ms : List Node} : Further p c ns m → p.Locates m ms d →
    Further p c (ns ++ ms) d

theorem Further.many (h : p.Further c ns m) (hmore : p.More m ms d) :
    (Pattern.many .layout p).Locates c (ns ++ ms) d := by
  induction h generalizing ms with
  | nil =>
    cases hmore with
    | nil hf =>
      rw [Place.rest_skip] at hf
      exact locates_many_none (hf.congr (Layout.skip_skip _))
    | cons hp h => exact (hp.congr (Place.skip_skip _)).many h
  | snoc _ hp ih =>
    rw [List.append_assoc]
    exact ih (.cons hp hmore)

theorem Further.many_end (h : p.Further c ns d) (hf : p.Fails d.rest) :
    (Pattern.many .layout p).Locates c ns d := by
  have hmany := h.many (.nil hf)
  rw [List.append_nil] at hmany
  exact hmany

/-! ## Rules -/

theorem Locates.silent {r : Rule} (hr : r.kind = .silent) (h : r.body.Locates c ns d) :
    (Pattern.rule r).Locates c ns d := by
  intro k _
  obtain ⟨ts, hfinds, hspans⟩ := h r.rank r.ranked_body
  refine ⟨_, .rule hfinds, ?_⟩
  simp only [Rule.wrap, hr]
  exact hspans

/-- A rule that leaves a node with its parts below it. -/
theorem Locates.rule {r : Rule} (hr : r.kind = .normal) (h : r.body.Locates c ns d) :
    ∃ text, (Pattern.rule r).Locates c [⟨r, c.upTo d, text, ns⟩] d := by
  obtain ⟨ts, hfinds, hspans⟩ := h r.rank r.ranked_body
  obtain ⟨text, hnode⟩ := hspans.node r
  refine ⟨text, fun k _ => ⟨_, .rule hfinds, ?_⟩⟩
  simp only [Rule.wrap, hr]
  exact hnode

/-- The node of a rule covers what the rule matches. -/
theorem Locates.node {r : Rule} {n : Node} (hr : r.kind ≠ .silent)
    (h : (Pattern.rule r).Locates c [n] d) :
    ∃ text children, n = ⟨r, c.upTo d, text, children⟩ := by
  obtain ⟨ts, hfinds, hspans⟩ := h (r.rank + 1) r.ranked_rule
  obtain ⟨parts, -, rfl⟩ := hfinds.of_rule
  obtain ⟨us, hus⟩ := Rule.wrap_of_ne_silent hr parts
  simp only [hus, Tree.Spans, Tree.locateFrom] at hspans
  obtain ⟨hnodes, hstop⟩ := hspans
  cases hnodes
  exact ⟨_, _, by rw [hstop]; rfl⟩

theorem Locates.span {r : Rule} {n : Node} (hr : r.kind ≠ .silent)
    (h : (Pattern.rule r).Locates c [n] d) : n.span = c.upTo d := by
  obtain ⟨text, children, rfl⟩ := h.node hr
  rfl

end Pattern

/-! ## Tokens -/

/-- After the layout at `c` the token stands, up to `d`. -/
structure Token.Stands (t : Token) (c d : Place) : Prop where
  valid : t.Valid
  text : c.skip.rest = t.text ++ d.rest
  ends : t.Ends d.rest
  offset : d.offset = c.skip.offset + utf8Size t.text

namespace Token.Stands

variable {t : Token} {r : Rule}

theorem congr (h : t.Stands c d) (hc : c.skip = c'.skip) : t.Stands c' d := by
  obtain ⟨hvalid, htext, hends, hoffset⟩ := h
  rw [hc] at htext hoffset
  exact ⟨hvalid, htext, hends, hoffset⟩

theorem skip_le (h : t.Stands c d) : c.skip ≤ d := ⟨t.text, h.text, h.offset⟩

theorem le (h : t.Stands c d) : c ≤ d := c.le_skip.trans h.skip_le

theorem lexes (h : t.Stands c d) : Lexes [t] c.rest d.rest :=
  ⟨d.rest, by rw [← Place.rest_skip, h.text], h.ends, rfl⟩

/-- A rule that takes the token leaves its node here. -/
theorem locates {n : Node} (h : t.Stands c d) (hr : r.Takes t n) (hkind : r.kind ≠ .silent) :
    ∃ n', (Pattern.rule r).Locates c [n'] d ∧ n'.erase = n ∧ n'.span = c.upTo d := by
  obtain ⟨o, hbody⟩ : ∃ o, r.body.Finds c.skip.rest o := ⟨_, r.body.finds_run _ r.ranked_body _⟩
  have hparse := (Pattern.Finds.rule hbody).parse_eq.symm.trans (h.text ▸ hr d.rest h.ends)
  cases o with
  | none => cases hparse
  | some m =>
    obtain ⟨parts, rest⟩ := m
    obtain ⟨us, hus⟩ := Rule.wrap_of_ne_silent hkind parts
    have heq : (Tree.yieldAll (r.wrap parts), rest) = (⟨[n], [], t.text⟩, d.rest) :=
      Option.some.inj hparse
    rw [hus, Prod.mk.injEq] at heq
    obtain ⟨hyield, rfl⟩ := heq
    have hparts : Tree.Spans us c.skip.offset (Tree.locateFrom [] [] c.skip.offset us).nodes
        (Tree.locateFrom [] [] c.skip.offset us).stop := ⟨rfl, rfl⟩
    obtain ⟨text, hnode⟩ := hparts.node r
    have herase := (Tree.locateFrom_yield [.node r us] [] [] c.skip.offset).1
    have hstop : (Tree.locateFrom [] [] c.skip.offset us).stop = d.offset := by
      have hfull := Tree.full_yieldAll [.node r us]
      rw [hyield, Tree.textAll_cons, Tree.text_node, Tree.textAll_nil, List.append_nil] at hfull
      rw [Tree.stop_locateFrom, ← hfull, h.offset]
    rw [hstop] at hnode
    refine ⟨⟨r, c.upTo d, text, (Tree.locateFrom [] [] c.skip.offset us).nodes⟩, fun k _ => ?_, ?_,
      rfl⟩
    · exact ⟨_, .rule hbody, by simp only [hus]; exact hnode⟩
    · rw [hnode.1, hyield] at herase
      simpa [Node.eraseAll, Place.upTo] using herase

/-- A token with nothing below it. -/
theorem locates_leaf {chars : List Char} (h : t.Stands c d)
    (hr : r.Takes t ⟨r, .nowhere, chars, []⟩) (hkind : r.kind ≠ .silent) :
    (Pattern.rule r).Locates c [⟨r, c.upTo d, chars, []⟩] d := by
  obtain ⟨⟨label, span, text, children⟩, hn, herase, hspan⟩ := h.locates hr hkind
  obtain rfl : span = c.upTo d := hspan
  rw [Node.erase, Node.mk.injEq] at herase
  obtain ⟨rfl, -, rfl, hchildren⟩ := herase
  cases children with
  | nil => exact hn
  | cons n ns => cases hchildren

theorem locates_symbol {s : Symbol} (h : (Token.symbol s).Stands c d) :
    (Pattern.text s.chars).Locates c [] d :=
  Pattern.locates_text h.text h.offset

/-- Where the reserved word that opens a phrase stands, the phrase starts. -/
theorem locates_opener {k : List Char} (h : (Token.word k).Stands c m) (hr : r.IsWord k)
    {ps : List Pattern} {last : Pattern} (hps : (Pattern.phrase ps last).Locates m ns d) :
    (Pattern.phrase (Pattern.opener r k ++ ps) last).Locates c ns d := by
  have hword : Grammar.word (Layout.skip c.rest) = k := ((lexes_word hr.valid.2).1 h.lexes).1
  have hahead : ¬(Pattern.rule r).Fails c.rest := by
    rw [hr.fails, not_not]
    exact hword
  have htext : (Pattern.text k).Locates c.skip [] m :=
    Pattern.locates_text (by rw [c.skip_skip]; exact h.text) (by rw [c.skip_skip]; exact h.offset)
  exact (Pattern.Locates.ahead hahead).seq (htext.seq hps)

end Token.Stands

/-- The tokens stand one after the other, up to `d` or to layout before it. -/
def Token.StandAll : List Token → Place → Place → Prop
  | [], c, d => d = c ∨ d = c.skip
  | t :: ts, c, d => ∃ m, t.Stands c m ∧ StandAll ts m d

namespace Token.StandAll

variable {t : Token} {ts us : List Token}

theorem single (h : t.Stands c d) : StandAll [t] c d := ⟨d, h, .inl rfl⟩

theorem cons (ht : t.Stands c m) (hts : StandAll ts m d) : StandAll (t :: ts) c d := ⟨m, ht, hts⟩

theorem of_skip (h : StandAll ts c.skip d) : StandAll ts c d := by
  cases ts with
  | nil => exact .inr (h.elim id fun hd => hd.trans c.skip_skip)
  | cons t ts =>
    obtain ⟨m, ht, hts⟩ := h
    exact ⟨m, ht.congr c.skip_skip, hts⟩

theorem append (hts : StandAll ts c m) (hus : StandAll us m d) : StandAll (ts ++ us) c d := by
  induction ts generalizing c with
  | nil =>
    obtain rfl | rfl := hts
    · exact hus
    · exact hus.of_skip
  | cons t ts ih =>
    obtain ⟨m', ht, hts⟩ := hts
    exact ⟨m', ht, ih hts⟩

/-- Layout after the tokens. -/
theorem skip (h : StandAll ts c d) : StandAll ts c d.skip := by
  have hnil : StandAll [] d d.skip := .inr rfl
  simpa using h.append hnil

theorem le (h : StandAll ts c d) : c ≤ d := by
  induction ts generalizing c with
  | nil =>
    obtain rfl | rfl := h
    · exact le_refl d
    · exact c.le_skip
  | cons t ts ih =>
    obtain ⟨m, ht, hts⟩ := h
    exact ht.le.trans (ih hts)

theorem skip_le (h : StandAll (t :: ts) c d) : c.skip ≤ d := by
  obtain ⟨m, ht, hts⟩ := h
  exact ht.skip_le.trans hts.le

theorem lexes (h : StandAll ts c d) : Lexes ts c.rest d.rest := by
  induction ts generalizing c with
  | nil =>
    obtain rfl | rfl := h
    · exact rfl
    · show Layout.skip c.rest = Layout.skip c.skip.rest
      rw [Place.rest_skip, Layout.skip_skip]
  | cons t ts ih =>
    obtain ⟨m, ht, hts⟩ := h
    exact lexes_cons.2 ⟨m.rest, ht.lexes, ih hts⟩

end Token.StandAll

/-- A token that the text starts with stands at every place with this text. -/
theorem Lexes.stands {t : Token} {cs rest : List Char} (h : Lexes [t] cs rest) (ht : t.Valid)
    (hc : Layout.skip c.rest = Layout.skip cs) :
    ∃ d, t.Stands c d ∧ Layout.skip d.rest = Layout.skip rest := by
  obtain ⟨mid, hcs, hends, hmid⟩ := h
  have htext : c.skip.rest = t.text ++ mid := by rw [Place.rest_skip, hc, hcs]
  exact ⟨⟨c.skip.offset + utf8Size t.text, mid⟩, ⟨ht, htext, hends, rfl⟩, hmid⟩

end Scoped.Grammar
