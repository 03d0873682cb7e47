import Scoped.Proofs.Completeness
import Scoped.Proofs.Terminals

/-!
# Nothing is lost between text and tree

The terminals of a match say what the program that is read off it says, in the same order : only
grouping is left out. The induction is on how deep rules stand inside each other (`Faithful`), and
what one rule adds is seen in its body. `Pattern.Bears` forgets of a derived forest all but its
nodes, which the program is read off, and its lexemes, so that each construct is taken apart for
both at once.

`Program.leaves_of_read` puts it together : the leaves of a match are the script, those between
the terminals are layout, and the terminals are the lexemes of the program.
-/

namespace Scoped

open Grammar Grammar.Pattern
open Grammar.Tree (lexemesAll textAll yieldAll)

variable {n k : Nat} {owner : Rule} {ns ms : List Node} {ls : List Lexeme}
  {items : List (List Node × List Lexeme)}

/-! ## Nodes and lexemes of derived forests -/

namespace Grammar

/-- In a node of the rule, a terminal is a mark. -/
def Rule.Marks (r : Rule) : Prop := ∀ t, lexemesAll r [.terminal t] = [.mark t]

/-- The pattern is a choice between texts. -/
def Pattern.isTexts : Pattern → Bool
  | text _ => true
  | alt p q => p.isTexts && q.isTexts
  | _ => false

namespace Pattern

variable {gap : Gap} {p q item separator : Pattern} {r : Rule}

theorem Derives.terminal_of_isTexts {ts : List Tree} (h : p.Derives n ts) (hp : p.isTexts = true) :
    ∃ t, ts = [.terminal t] := by
  induction h with
  | text t => exact ⟨t, rfl⟩
  | altLeft _ ih =>
    rw [isTexts, Bool.and_eq_true] at hp
    exact ih hp.1
  | altRight _ ih =>
    rw [isTexts, Bool.and_eq_true] at hp
    exact ih hp.2
  | _ => cases hp

/-- A whole word is what stands before the lookahead. -/
theorem Derives.wholeWord {ts : List Tree} (h : (wholeWord p).Derives n ts) : p.Derives n ts := by
  obtain ⟨us, cs, vs, hp, rfl, hv, rfl⟩ := derives_seq.1 h
  obtain rfl := derives_notAhead.1 hv
  simpa [Gap.tree] using hp

/-- In a node of rule `owner` the pattern derives a forest with these nodes and lexemes. -/
def Bears (p : Pattern) (n : Nat) (owner : Rule) (ns : List Node) (ls : List Lexeme) : Prop :=
  ∃ ts, p.Derives n ts ∧ (yieldAll ts).nodes = ns ∧ lexemesAll owner ts = ls

theorem Bears.up (h : p.Bears n owner ns ls) : p.Bears (n + 1) owner ns ls := by
  obtain ⟨ts, hts, hns, hls⟩ := h
  exact ⟨ts, hts.mono (Nat.le_succ n), hns, hls⟩

theorem Bears.text {t : List Char} (h : (text t).Bears n owner ns ls) :
    ns = [] ∧ ls = lexemesAll owner [.terminal t] := by
  obtain ⟨ts, hts, rfl, rfl⟩ := h
  obtain rfl := derives_text.1 hts
  exact ⟨rfl, rfl⟩

theorem Bears.mark {t : List Char} (h : (Pattern.text t).Bears n owner ns ls) (ho : owner.Marks) :
    ns = [] ∧ ls = [.mark t] := by
  rw [← ho t]
  exact h.text

theorem Bears.ahead (h : (ahead p).Bears n owner ns ls) : ns = [] ∧ ls = [] := by
  obtain ⟨ts, hts, rfl, rfl⟩ := h
  cases hts
  exact ⟨rfl, rfl⟩

theorem Bears.empty (h : empty.Bears n owner ns ls) : ns = [] ∧ ls = [] := by
  obtain ⟨ts, hts, rfl, rfl⟩ := h
  cases hts
  exact ⟨rfl, rfl⟩

theorem Bears.finish (h : finish.Bears n owner ns ls) : ns = [] ∧ ls = [] := by
  obtain ⟨ts, hts, rfl, rfl⟩ := h
  cases hts
  exact ⟨rfl, rfl⟩

theorem Bears.seq (h : (seq gap p q).Bears n owner ns ls) : ∃ ns₁ ns₂ ls₁ ls₂,
    p.Bears n owner ns₁ ls₁ ∧ q.Bears n owner ns₂ ls₂ ∧ ns = ns₁ ++ ns₂ ∧ ls = ls₁ ++ ls₂ := by
  obtain ⟨ts, hts, rfl, rfl⟩ := h
  obtain ⟨us, cs, vs, hp, -, hq, rfl⟩ := derives_seq.1 hts
  exact ⟨_, _, _, _, ⟨us, hp, rfl, rfl⟩, ⟨vs, hq, rfl, rfl⟩, by simp, by simp⟩

theorem Bears.alt (h : (alt p q).Bears n owner ns ls) :
    p.Bears n owner ns ls ∨ q.Bears n owner ns ls := by
  obtain ⟨ts, hts, hns, hls⟩ := h
  rcases derives_alt.1 hts with hp | hq
  · exact .inl ⟨ts, hp, hns, hls⟩
  · exact .inr ⟨ts, hq, hns, hls⟩

theorem Bears.optional (h : (optional p).Bears n owner ns ls) :
    p.Bears n owner ns ls ∨ ns = [] ∧ ls = [] :=
  h.alt.imp id Bears.empty

theorem Bears.many (h : (many gap p).Bears n owner ns ls) :
    ∃ items : List (List Node × List Lexeme), (∀ i ∈ items, p.Bears n owner i.1 i.2) ∧
      ns = items.flatMap Prod.fst ∧ ls = items.flatMap Prod.snd := by
  obtain ⟨ts, hts, rfl, rfl⟩ := h
  obtain ⟨forests, hforests, rfl⟩ := hts.items
  refine ⟨forests.map fun f => ((yieldAll f.2).nodes, lexemesAll owner f.2), ?_, ?_⟩
  · intro i hi
    obtain ⟨f, hf, rfl⟩ := List.mem_map.1 hi
    exact ⟨f.2, hforests f hf, rfl, rfl⟩
  · clear hts hforests
    induction forests with
    | nil => exact ⟨rfl, rfl⟩
    | cons f forests ih => simp [ih.1, ih.2]

theorem Bears.node (h : (rule r).Bears (n + 1) owner ns ls)
    (hr : r.kind = .normal ∨ r.kind = .compound) :
    ∃ chars ms, ns = [⟨r, .nowhere, chars, ms⟩] ∧ r.body.Bears n r ms ls := by
  obtain ⟨ts, hts, rfl, rfl⟩ := h
  obtain ⟨us, hus, rfl⟩ := derives_rule.1 hts
  rw [r.wrap_node hr]
  exact ⟨(yieldAll us).text, _, by simp [Tree.yieldAll, Tree.yield], us, hus, rfl, by simp⟩

theorem Bears.silent (h : (rule r).Bears (n + 1) owner ns ls) (hr : r.kind = .silent) :
    r.body.Bears n owner ns ls := by
  obtain ⟨ts, hts, rfl, rfl⟩ := h
  obtain ⟨us, hus, rfl⟩ := derives_rule.1 hts
  rw [r.wrap_silent hr]
  exact ⟨us, hus, rfl, rfl⟩

theorem Bears.atomic (h : (rule r).Bears (n + 1) owner ns ls) (hr : r.kind = .atomic) :
    ∃ us, r.body.Derives n us ∧ ns = [⟨r, .nowhere, textAll us, []⟩] ∧
      ls = lexemesAll r [.terminal (textAll us)] := by
  obtain ⟨ts, hts, rfl, rfl⟩ := h
  obtain ⟨us, hus, rfl⟩ := derives_rule.1 hts
  rw [r.wrap_atomic hr]
  exact ⟨us, hus, by simp [Tree.yieldAll, Tree.yield], by simp⟩

/-- An operator that is not a word. -/
theorem Bears.texts (h : (rule r).Bears (n + 1) owner ns ls) (hr : r.kind = .normal)
    (htexts : r.body.isTexts = true) :
    ∃ t, ns = [⟨r, .nowhere, t, []⟩] ∧ ls = lexemesAll r [.terminal t] := by
  obtain ⟨ts, hts, rfl, rfl⟩ := h
  obtain ⟨us, hus, rfl⟩ := derives_rule.1 hts
  obtain ⟨t, rfl⟩ := hus.terminal_of_isTexts htexts
  rw [r.wrap_node (.inl hr)]
  exact ⟨t, by simp [Tree.yieldAll, Tree.yield], by simp⟩

/-- An operator that is a word. -/
theorem Bears.word {w : List Char} (h : (rule r).Bears (n + 1) owner ns ls)
    (hr : r.kind = .atomic) (hbody : r.body = wholeWord (Pattern.text w)) :
    ns = [⟨r, .nowhere, w, []⟩] ∧ ls = lexemesAll r [.terminal w] := by
  obtain ⟨us, hus, rfl, rfl⟩ := h.atomic hr
  rw [hbody] at hus
  obtain rfl := derives_text.1 hus.wholeWord
  simp

theorem Bears.opener {kw : Rule} {w : List Char} {ps : List Pattern} {last : Pattern}
    (h : (phrase (opener kw w ++ ps) last).Bears n owner ns ls) (ho : owner.Marks) :
    ∃ ls', (phrase ps last).Bears n owner ns ls' ∧ ls = .mark w :: ls' := by
  obtain ⟨_, _, _, _, hahead, htext, rfl, rfl⟩ := Bears.seq h
  obtain ⟨_, _, _, ls', hword, hrest, rfl, rfl⟩ := Bears.seq htext
  obtain ⟨rfl, rfl⟩ := hahead.ahead
  obtain ⟨rfl, rfl⟩ := hword.mark ho
  exact ⟨ls', hrest, rfl⟩

theorem Bears.separated (h : (separated item separator).Bears n owner ns ls) :
    ∃ ns₁ ls₁, ∃ items : List (List Node × List Lexeme), item.Bears n owner ns₁ ls₁ ∧
      (∀ i ∈ items, (phrase [separator] item).Bears n owner i.1 i.2) ∧
      ns = ns₁ ++ items.flatMap Prod.fst ∧ ls = ls₁ ++ items.flatMap Prod.snd := by
  obtain ⟨ns₁, ns₂, ls₁, ls₂, hfirst, hmore, rfl, rfl⟩ := Bears.seq h
  obtain ⟨items, hitems, rfl, rfl⟩ := hmore.many
  exact ⟨ns₁, ls₁, items, hfirst, hitems, rfl, rfl⟩

/-- Items that stand after commas. -/
theorem Bears.commas (ho : owner.Marks)
    (h : ∀ i ∈ items, (phrase [Pattern.text [',']] item).Bears n owner i.1 i.2) :
    ∃ items' : List (List Node × List Lexeme), (∀ i ∈ items', item.Bears n owner i.1 i.2) ∧
      items.flatMap Prod.fst = items'.flatMap Prod.fst ∧
      items.flatMap Prod.snd = (items'.map Prod.snd).flatMap (.mark [','] :: ·) := by
  induction items with
  | nil => exact ⟨[], by simp, rfl, rfl⟩
  | cons i items ih =>
    obtain ⟨hi, hmore⟩ := List.forall_mem_cons.1 h
    obtain ⟨items', hitems, hns, hls⟩ := ih hmore
    obtain ⟨_, ns, _, ls, hcomma, hitem, hns', hls'⟩ := Bears.seq hi
    obtain ⟨rfl, rfl⟩ := hcomma.mark ho
    refine ⟨(ns, ls) :: items', List.forall_mem_cons.2 ⟨hitem, hitems⟩, ?_, ?_⟩
    · simp [hns, hns']
    · simp [hls, hls']

theorem Bears.parenthesized (h : (parenthesized item).Bears n owner ns ls) (ho : owner.Marks) :
    ∃ items : List (List Node × List Lexeme), (∀ i ∈ items, item.Bears n owner i.1 i.2) ∧
      ns = items.flatMap Prod.fst ∧ ls = Lexeme.parens (Lexeme.listed (items.map Prod.snd)) := by
  obtain ⟨_, _, _, _, hopen, hrest, rfl, rfl⟩ := Bears.seq h
  obtain ⟨_, _, _, _, hlist, hclose, rfl, rfl⟩ := Bears.seq hrest
  obtain ⟨rfl, rfl⟩ := hopen.mark ho
  obtain ⟨rfl, rfl⟩ := hclose.mark ho
  obtain hlist | ⟨rfl, rfl⟩ := hlist.optional
  · obtain ⟨ns, ls, more, hfirst, hmore, rfl, rfl⟩ := hlist.separated
    obtain ⟨items, hitems, hns, hls⟩ := Bears.commas ho hmore
    refine ⟨(ns, ls) :: items, List.forall_mem_cons.2 ⟨hfirst, hitems⟩, ?_, ?_⟩
    · rw [hns, List.append_nil, List.nil_append, List.flatMap_cons]
    · rw [hls, List.map_cons, Lexeme.listed_cons]
      rfl
  · exact ⟨[], by simp, rfl, rfl⟩

theorem Bears.braced (h : braced.Bears n owner ns ls) (ho : owner.Marks) :
    ∃ items : List (List Node × List Lexeme),
      (∀ i ∈ items, (rule .statement).Bears n owner i.1 i.2) ∧
      ns = items.flatMap Prod.fst ∧ ls = Lexeme.braces (items.flatMap Prod.snd) := by
  obtain ⟨_, _, _, _, hopen, hrest, rfl, rfl⟩ := Bears.seq h
  obtain ⟨_, _, _, _, hmany, hclose, rfl, rfl⟩ := Bears.seq hrest
  obtain ⟨rfl, rfl⟩ := hopen.mark ho
  obtain ⟨rfl, rfl⟩ := hclose.mark ho
  obtain ⟨items, hitems, rfl, rfl⟩ := hmany.many
  exact ⟨items, hitems, by simp, rfl⟩

end Pattern

end Grammar

/-! ## Names, literals and operators -/

theorem Ident.written (h : (rule .identifier).Bears n owner ns ls) : ∃ w,
    ns = [⟨.identifier, .nowhere, w, []⟩] ∧
      ls = [(Ident.ofNode ⟨.identifier, .nowhere, w, []⟩).lexeme] := by
  obtain ⟨us, -, rfl, rfl⟩ := h.up.atomic rfl
  exact ⟨_, rfl, rfl⟩

/-- The nodes are one, and an expression that is read off it is written with these lexemes. -/
def Expr.Written (ns : List Node) (ls : List Lexeme) : Prop :=
  ∃ n, ns = [n] ∧ ∀ e, Expr.ofNode n = .ok e → e.lexemes = ls

theorem Literal.lexemes_of_numeral {w : List Char} {l : Literal}
    (h : Literal.ofNode ⟨.numericLiteral, .nowhere, w, []⟩ = .ok l) :
    l.lexemes = [Terminal.lexeme ⟨.numericLiteral, w⟩] := by
  have hw : ofNumeral? w = some l := by
    cases hw : ofNumeral? w with
    | none => simp [Literal.ofNode, hw] at h
    | some l' => simpa [Literal.ofNode, hw] using h
  have hnumber : ∃ x, l = .number x := by
    unfold ofNumeral? at hw
    split at hw
    · obtain ⟨x, -, rfl⟩ := Option.map_eq_some_iff.1 hw
      exact ⟨x, rfl⟩
    · obtain ⟨x, -, rfl⟩ := Option.map_eq_some_iff.1 hw
      exact ⟨x, rfl⟩
  obtain ⟨x, rfl⟩ := hnumber
  simp only [Terminal.lexeme, Terminal.literal?, hw, Literal.lexemes]

theorem Expr.written_literal (h : (rule .literal).Bears n owner ns ls) : Expr.Written ns ls := by
  have hwritten : ∀ {m : Node}, (∀ l, Literal.ofNode m = .ok l → l.lexemes = ls) →
      m.rule ∈ [Rule.nilLiteral, .booleanLiteral, .numericLiteral, .stringLiteral] →
      Expr.Written [m] ls := by
    refine fun {m} hl hm => ⟨m, rfl, fun e hok => ?_⟩
    rw [Expr.ofNode_literal hm] at hok
    obtain ⟨l, hl', hok⟩ := bind_eq_ok.1 hok
    cases hok
    exact hl l hl'
  obtain h | h := (h.up.silent rfl).alt
  · obtain ⟨rfl, rfl⟩ := h.up.word rfl rfl
    refine hwritten (fun l hl => ?_) (by simp)
    cases hl
    rfl
  obtain h | h := h.alt
  · obtain ⟨us, hus, rfl, rfl⟩ := h.up.atomic rfl
    refine hwritten (fun l hl => ?_) (by simp)
    cases hl
    obtain hus | hus := derives_alt.1 hus.wholeWord
    · obtain rfl := derives_text.1 hus
      rfl
    · obtain rfl := derives_text.1 hus
      rfl
  obtain h | h := h.alt
  · obtain ⟨us, -, rfl, rfl⟩ := h.up.atomic rfl
    exact hwritten (fun l hl => Literal.lexemes_of_numeral hl) (by simp)
  · obtain ⟨chars, ms, rfl, hbody⟩ := h.up.node (.inr rfl)
    obtain ⟨_, _, _, _, hopen, hrest, rfl, rfl⟩ := Bears.seq hbody
    obtain ⟨_, _, _, _, hcharacters, hclose, rfl, rfl⟩ := Bears.seq hrest
    obtain ⟨rfl, rfl⟩ := hopen.mark fun _ => rfl
    obtain ⟨rfl, rfl⟩ := hclose.mark fun _ => rfl
    obtain ⟨us, -, rfl, rfl⟩ := hcharacters.up.atomic rfl
    refine hwritten (fun l hl => ?_) (by simp)
    cases hl
    rfl

/-- An operator as it is written. -/
def Connective.symbol : Connective → String
  | binary op => op.symbol
  | logical op => op.symbol

theorem Connective.lexemes_join (c : Connective) (span : Span) (l r : Expr) :
    (c.join span l r).lexemes = l.lexemes ++ .mark c.symbol.toList :: r.lexemes := by
  cases c <;> rfl

/-- An operator that is read off the node, in a chain of strength `k`, is written as the node. -/
def Connective.Written (k : Nat) (op : Node) : Prop :=
  ∀ c, Connective.reader k op = .ok c → c.symbol.toList = op.text

theorem Connective.written_symbol (hk : 3 ≤ k) (op : Node) : Connective.Written k op := by
  intro c hok
  rw [Connective.reader, if_neg (by omega), Connective.ofBinaryNode] at hok
  split at hok
  · next o ho =>
    cases hok
    have hsymbol : o.symbol = String.ofList op.text := by simpa using List.find?_some ho
    rw [Connective.symbol, hsymbol, String.toList_ofList]
  · cases hok

theorem written_operator (hk : 1 ≤ k) (hk' : k ≤ 6)
    (h : (rule (.operator k)).Bears n owner ns ls) :
    ∃ op : Node, Connective.Written k op ∧ ns = [op] ∧ ls = [.mark op.text] := by
  rcases (by omega : k = 1 ∨ k = 2 ∨ 3 ≤ k) with rfl | rfl | hk
  · obtain ⟨rfl, rfl⟩ := Bears.word (r := .orOperator) h.up rfl rfl
    refine ⟨_, fun c hok => ?_, rfl, rfl⟩
    cases hok
    rfl
  · obtain ⟨rfl, rfl⟩ := Bears.word (r := .andOperator) h.up rfl rfl
    refine ⟨_, fun c hok => ?_, rfl, rfl⟩
    cases hok
    rfl
  · have hkind : (Rule.operator k).kind = .normal := by interval_cases k <;> rfl
    have htexts : (Rule.operator k).body.isTexts = true := by interval_cases k <;> rfl
    have hmarks : (Rule.operator k).Marks := by interval_cases k <;> exact fun _ => rfl
    obtain ⟨t, rfl, rfl⟩ := h.up.texts hkind htexts
    exact ⟨_, Connective.written_symbol hk _, rfl, hmarks t⟩

theorem UnaryOp.symbol_of_ofNode {op : Node} {o : UnaryOp} (h : UnaryOp.ofNode op = .ok o) :
    o.symbol.toList = op.text := by
  rw [UnaryOp.ofNode] at h
  split at h
  · next o' ho =>
    cases h
    have hsymbol : o.symbol = String.ofList op.text := by simpa using List.find?_some ho
    rw [hsymbol, String.toList_ofList]
  · cases h

/-! ## Lists -/

/-- The nodes are one, and a statement that is read off it is written with these lexemes. -/
def Stmt.Written (ns : List Node) (ls : List Lexeme) : Prop :=
  ∃ n, ns = [n] ∧ n.rule = .statement ∧ ∀ s, Stmt.ofNode n = .ok s → s.lexemes = ls

/-- With at most so many rules inside each other, what is read is written as it stands. Only a
primary expression has to stand where it can : in another node than a call, its parentheses would
not count as grouping. -/
structure Faithful (n : Nat) : Prop where
  expr : ∀ {k : Nat} {owner : Rule} {ns : List Node} {ls : List Lexeme}, k ≤ 8 →
    (rule (.ofStrength k)).Bears n owner ns ls → Expr.Written ns ls
  primary : ∀ {ns : List Node} {ls : List Lexeme},
    (rule .primaryExpression).Bears n .callExpression ns ls → Expr.Written ns ls
  stmt : ∀ {owner : Rule} {ns : List Node} {ls : List Lexeme},
    (rule .statement).Bears n owner ns ls → Stmt.Written ns ls

theorem Expr.lexemesEach_of_items (hitems : ∀ i ∈ items, Expr.Written i.1 i.2) {es : List Expr}
    (hok : Expr.allOfNodes (items.flatMap Prod.fst) = .ok es) :
    Expr.lexemesEach es = items.map Prod.snd := by
  induction items generalizing es with
  | nil =>
    cases hok
    rfl
  | cons i items ih =>
    obtain ⟨⟨m, hm, hwritten⟩, hitems⟩ := List.forall_mem_cons.1 hitems
    rw [List.flatMap_cons, hm] at hok
    obtain ⟨e, he, hok⟩ := bind_eq_ok.1 hok
    obtain ⟨es', hes', hok⟩ := bind_eq_ok.1 hok
    cases hok
    rw [Expr.lexemesEach, hwritten e he, ih hitems hes', List.map_cons]

theorem Stmt.lexemesAll_of_items (hitems : ∀ i ∈ items, Stmt.Written i.1 i.2) {ss : List Stmt}
    (hok : Stmt.allOfNodes (items.flatMap Prod.fst) = .ok ss) :
    Stmt.lexemesAll ss = items.flatMap Prod.snd := by
  induction items generalizing ss with
  | nil =>
    cases hok
    rfl
  | cons i items ih =>
    obtain ⟨⟨m, hm, hrule, hwritten⟩, hitems⟩ := List.forall_mem_cons.1 hitems
    rw [List.flatMap_cons, hm, List.singleton_append, Stmt.allOfNodes_cons hrule] at hok
    obtain ⟨s, hs, hok⟩ := bind_eq_ok.1 hok
    obtain ⟨ss', hss', hok⟩ := bind_eq_ok.1 hok
    cases hok
    rw [Stmt.lexemesAll, hwritten s hs, ih hitems hss', List.flatMap_cons]

theorem Expr.written_arguments (ih : Faithful n) (h : (rule .arguments).Bears n owner ns ls) :
    ∃ chars ms, ns = [⟨.arguments, .nowhere, chars, ms⟩] ∧ ∀ es, Expr.allOfNodes ms = .ok es →
      ls = Lexeme.parens (Lexeme.listed (Expr.lexemesEach es)) := by
  obtain ⟨chars, ms, rfl, hbody⟩ := h.up.node (.inl rfl)
  obtain ⟨items, hitems, rfl, rfl⟩ := hbody.parenthesized fun _ => rfl
  refine ⟨chars, _, rfl, fun es hok => ?_⟩
  rw [Expr.lexemesEach_of_items (fun i hi => ih.expr (Nat.zero_le 8) (hitems i hi)) hok]

theorem Ident.written_parameters (h : (rule .formalParameters).Bears n owner ns ls) :
    ∃ chars ms, ns = [⟨.formalParameters, .nowhere, chars, ms⟩] ∧
      ls = Lexeme.parens (Lexeme.listed ((ms.map Ident.ofNode).map fun x => [x.lexeme])) := by
  obtain ⟨chars, ms, rfl, hbody⟩ := h.up.node (.inl rfl)
  obtain ⟨items, hitems, rfl, rfl⟩ := hbody.parenthesized fun _ => rfl
  refine ⟨chars, _, rfl, ?_⟩
  congr 2
  clear h hbody
  induction items with
  | nil => rfl
  | cons i items ih =>
    obtain ⟨hi, hitems⟩ := List.forall_mem_cons.1 hitems
    obtain ⟨w, hns, hls⟩ := Ident.written hi
    rw [List.map_cons, ih hitems, List.flatMap_cons, hns, hls]
    rfl

/-- A function is written as its parameters and its body are, after its name if it has one. -/
theorem FunctionDef.written (ih : Faithful n)
    (h : (phrase [rule .formalParameters] (rule .functionBody)).Bears n owner ns ls) :
    ∃ ps b, ns = [ps, b] ∧ ∀ label span parts d,
      FunctionDef.ofNodes label span parts [ps, b] = .ok d →
        d.lexemes = .mark ['f', 'n'] :: (parts.id.toList.map Ident.lexeme ++ ls) := by
  obtain ⟨_, _, _, _, hps, hb, rfl, rfl⟩ := Bears.seq h
  obtain ⟨chars, ms, rfl, rfl⟩ := Ident.written_parameters hps
  obtain ⟨chars', body, rfl, hbody⟩ := Bears.node hb.up (.inl rfl)
  obtain ⟨items, hitems, rfl, rfl⟩ := hbody.braced fun _ => rfl
  have hwritten := fun i hi => ih.stmt (hitems i hi)
  refine ⟨_, _, rfl, fun label span parts d hok => ?_⟩
  rw [FunctionDef.ofNodes_pair] at hok
  obtain ⟨ss, hss, hok⟩ := bind_eq_ok.1 hok
  cases hok
  rw [FunctionDef.lexemes, Stmt.lexemesAll_of_items hwritten hss]

/-! ## Expressions -/

theorem Expr.written_primary (ih : Faithful n)
    (h : (rule .primaryExpression).Bears (n + 1) .callExpression ns ls) : Expr.Written ns ls := by
  obtain h | h := (h.silent rfl).alt
  · obtain ⟨chars, ms, rfl, hbody⟩ := h.up.node (.inl rfl)
    obtain ⟨ls, hfunction, rfl⟩ := Bears.opener hbody fun _ => rfl
    obtain ⟨ps, b, rfl, hd⟩ := FunctionDef.written ih hfunction
    refine ⟨_, rfl, fun e hok => ?_⟩
    obtain ⟨d, hd', hok⟩ := bind_eq_ok.1 hok
    cases hok
    exact hd _ _ _ d hd'
  obtain h | h := h.alt
  · exact Expr.written_literal h
  obtain h | h := h.alt
  · obtain ⟨w, rfl, rfl⟩ := Ident.written h
    refine ⟨_, rfl, fun e hok => ?_⟩
    cases hok
    rfl
  · obtain ⟨_, _, _, _, hopen, hrest, rfl, rfl⟩ := Bears.seq h
    obtain ⟨_, _, _, _, hexpr, hclose, rfl, rfl⟩ := Bears.seq hrest
    obtain ⟨rfl, rfl⟩ := hopen.text
    obtain ⟨rfl, rfl⟩ := hclose.text
    obtain ⟨m, rfl, hm⟩ := ih.expr (Nat.zero_le 8) hexpr
    refine ⟨m, rfl, fun e hok => ?_⟩
    -- in a call the parentheses are grouping
    have hgroup : ∀ ls : List Lexeme, lexemesAll .callExpression [.terminal ['(']] ++
        (ls ++ lexemesAll .callExpression [.terminal [')']]) = ls := by
      intro ls
      exact List.append_nil ls
    rw [hgroup, hm e hok]

theorem Expr.lexemes_calls (hitems : ∀ i ∈ items, ∃ chars ms,
      i.1 = [⟨.arguments, .nowhere, chars, ms⟩] ∧ ∀ es, Expr.allOfNodes ms = .ok es →
        i.2 = Lexeme.parens (Lexeme.listed (Expr.lexemesEach es)))
    {start : Nat} {callee e : Expr}
    (hok : Expr.callsOfNodes start callee (items.flatMap Prod.fst) = .ok e) :
    e.lexemes = callee.lexemes ++ items.flatMap Prod.snd := by
  induction items generalizing callee with
  | nil =>
    cases hok
    simp
  | cons i items ih =>
    obtain ⟨⟨chars, ms, hns, hls⟩, hitems⟩ := List.forall_mem_cons.1 hitems
    rw [List.flatMap_cons, hns] at hok
    obtain ⟨es, hes, hok⟩ := bind_eq_ok.1 hok
    rw [ih hitems hok, Expr.lexemes, ← hls es hes, List.flatMap_cons, List.append_assoc]

theorem Expr.written_call (ih : Faithful n)
    (h : (rule .callExpression).Bears (n + 1) owner ns ls) : Expr.Written ns ls := by
  obtain ⟨chars, ms, rfl, hbody⟩ := h.node (.inl rfl)
  obtain ⟨_, _, _, _, hcallee, hcalls, rfl, rfl⟩ := Bears.seq hbody
  obtain ⟨m, rfl, hm⟩ := ih.primary hcallee
  obtain ⟨items, hitems, rfl, rfl⟩ := hcalls.many
  refine ⟨_, rfl, fun e hok => ?_⟩
  obtain ⟨callee, hcallee', hok⟩ := bind_eq_ok.1 hok
  rw [Expr.lexemes_calls (fun i hi => Expr.written_arguments ih (hitems i hi)) hok, hm _ hcallee']

theorem Expr.written_unary (ih : Faithful n)
    (h : (rule .unaryExpression).Bears (n + 1) owner ns ls) : Expr.Written ns ls := by
  obtain ⟨chars, ms, rfl, hbody⟩ := h.node (.inl rfl)
  obtain hunary | hcall := hbody.alt
  · obtain ⟨_, _, _, _, hop, hoperand, rfl, rfl⟩ := Bears.seq hunary
    obtain ⟨t, rfl, rfl⟩ := hop.up.texts rfl rfl
    obtain ⟨m, rfl, hm⟩ := ih.expr (k := 7) (by decide) hoperand
    refine ⟨_, rfl, fun e hok => ?_⟩
    obtain ⟨o, ho, hok⟩ := bind_eq_ok.1 hok
    obtain ⟨operand, hoperand', hok⟩ := bind_eq_ok.1 hok
    cases hok
    rw [Expr.lexemes, UnaryOp.symbol_of_ofNode ho, hm _ hoperand']
    rfl
  · obtain ⟨m, rfl, hm⟩ := ih.expr (k := 8) (by decide) hcall
    exact ⟨_, rfl, fun e hok => hm e (Expr.ofNode_singleton.1 hok)⟩

theorem Expr.lexemes_chain (hitems : ∀ i ∈ items, ∃ op ns ls, Connective.Written k op ∧
      i.1 = op :: ns ∧ i.2 = .mark op.text :: ls ∧ Expr.Written ns ls)
    {label : Rule} {span : Span} {first e : Expr}
    (hok : Expr.chainOfNodes (Connective.reader k) label span first (items.flatMap Prod.fst) =
      .ok e) :
    e.lexemes = first.lexemes ++ items.flatMap Prod.snd := by
  induction items generalizing first with
  | nil =>
    cases hok
    simp
  | cons i items ih =>
    obtain ⟨⟨op, ns, ls, hop, hns, hls, m, rfl, hm⟩, hitems⟩ := List.forall_mem_cons.1 hitems
    obtain ⟨rule, place, chars, children⟩ := m
    rw [List.flatMap_cons, hns] at hok
    obtain ⟨c, hc, hok⟩ := bind_eq_ok.1 hok
    obtain ⟨right, hright, hok⟩ := bind_eq_ok.1 hok
    rw [ih hitems hok, c.lexemes_join, hop c hc, hm _ hright, List.flatMap_cons, hls,
      List.append_assoc]

theorem Expr.written_chain (ih : Faithful n) (hk : 1 ≤ k) (hk' : k ≤ 6)
    (h : (rule (.ofStrength k)).Bears (n + 1) owner ns ls) : Expr.Written ns ls := by
  have hkind : (Rule.ofStrength k).kind = .normal := by interval_cases k <;> rfl
  have hchain : (Rule.ofStrength k).body =
      separated (rule (.ofStrength (k + 1))) (rule (.operator k)) := by interval_cases k <;> rfl
  obtain ⟨chars, ms, rfl, hbody⟩ := h.node (.inl hkind)
  rw [hchain] at hbody
  obtain ⟨_, _, items, hfirst, hitems, rfl, rfl⟩ := hbody.separated
  obtain ⟨m, rfl, hm⟩ := ih.expr (by omega) hfirst
  refine ⟨_, rfl, fun e hok => ?_⟩
  rw [List.singleton_append, Expr.ofNode_chain hk hk'] at hok
  obtain ⟨first, hfirst', hok⟩ := bind_eq_ok.1 hok
  rw [Expr.lexemes_chain (fun i hi => ?_) hok, hm _ hfirst']
  obtain ⟨_, ns, _, ls, hop, hright, hns, hls⟩ := Bears.seq (hitems i hi)
  obtain ⟨op, hword, rfl, rfl⟩ := written_operator hk hk' hop
  exact ⟨op, ns, ls, hword, hns, hls, ih.expr (by omega) hright⟩

theorem Expr.written_expression (ih : Faithful n)
    (h : (rule .expression).Bears (n + 1) owner ns ls) : Expr.Written ns ls := by
  obtain hassign | hor := (h.silent rfl).alt
  · obtain ⟨chars, ms, rfl, hbody⟩ := hassign.up.node (.inl rfl)
    obtain ⟨_, _, _, _, htarget, hrest, rfl, rfl⟩ := Bears.seq hbody
    obtain ⟨_, _, _, _, hahead, hrest', rfl, rfl⟩ := Bears.seq hrest
    obtain ⟨_, _, _, _, hsign, hvalue, rfl, rfl⟩ := Bears.seq hrest'
    obtain ⟨w, rfl, rfl⟩ := Ident.written htarget
    obtain ⟨rfl, rfl⟩ := hahead.ahead
    obtain ⟨rfl, rfl⟩ := hsign.mark fun _ => rfl
    obtain ⟨m, rfl, hm⟩ := ih.expr (Nat.zero_le 8) hvalue
    refine ⟨_, rfl, fun e hok => ?_⟩
    obtain ⟨value, hvalue', hok⟩ := bind_eq_ok.1 hok
    cases hok
    rw [Expr.lexemes, hm value hvalue']
    rfl
  · exact ih.expr (k := 1) (by decide) hor

/-- The rules for all strengths but the strongest, which groups. -/
theorem Expr.written (ih : Faithful n) (hk : k ≤ 8)
    (h : (rule (.ofStrength k)).Bears (n + 1) owner ns ls) : Expr.Written ns ls := by
  rcases (by omega : k = 0 ∨ (1 ≤ k ∧ k ≤ 6) ∨ k = 7 ∨ k = 8) with rfl | ⟨hk, hk'⟩ | rfl | rfl
  · exact Expr.written_expression ih h
  · exact Expr.written_chain ih hk hk' h
  · exact Expr.written_unary ih h
  · exact Expr.written_call ih h

/-! ## Statements -/

/-- The nodes are one, and a statement that it stands for is written with these lexemes. -/
def Stmt.WrittenIn (ns : List Node) (ls : List Lexeme) : Prop :=
  ∃ m, ns = [m] ∧ ∀ chars s, Stmt.ofNode ⟨.statement, .nowhere, chars, [m]⟩ = .ok s →
    s.lexemes = ls

theorem Stmt.written_function (ih : Faithful n)
    (h : (rule .functionDeclaration).Bears n owner ns ls) : Stmt.WrittenIn ns ls := by
  obtain ⟨chars, ms, rfl, hbody⟩ := h.up.node (.inl rfl)
  obtain ⟨_, hrest, rfl⟩ := Bears.opener hbody fun _ => rfl
  obtain ⟨_, _, _, _, hname, hfunction, rfl, rfl⟩ := Bears.seq hrest
  obtain ⟨w, rfl, rfl⟩ := Ident.written hname
  obtain ⟨ps, b, rfl, hd⟩ := FunctionDef.written ih hfunction
  refine ⟨_, rfl, fun _ s hok => ?_⟩
  obtain ⟨d, hd', hok⟩ := bind_eq_ok.1 hok
  cases hok
  exact hd _ _ _ d hd'

theorem Stmt.written_variable (ih : Faithful n)
    (h : (rule .variableDeclaration).Bears n owner ns ls) : Stmt.WrittenIn ns ls := by
  obtain ⟨chars, ms, rfl, hbody⟩ := h.up.node (.inl rfl)
  obtain ⟨_, hrest, rfl⟩ := Bears.opener hbody fun _ => rfl
  obtain ⟨_, _, _, _, hname, hrest', rfl, rfl⟩ := Bears.seq hrest
  obtain ⟨_, _, _, _, hinit, hsemi, rfl, rfl⟩ := Bears.seq hrest'
  obtain ⟨w, rfl, rfl⟩ := Ident.written hname
  obtain ⟨rfl, rfl⟩ := hsemi.mark fun _ => rfl
  obtain hinit | ⟨rfl, rfl⟩ := hinit.optional
  · obtain ⟨_, _, _, _, hsign, hvalue, rfl, rfl⟩ := Bears.seq hinit
    obtain ⟨rfl, rfl⟩ := hsign.mark fun _ => rfl
    obtain ⟨m, rfl, hm⟩ := ih.expr (Nat.zero_le 8) hvalue
    refine ⟨_, rfl, fun _ s hok => ?_⟩
    obtain ⟨e, he, hok⟩ := bind_eq_ok.1 hok
    cases hok
    rw [Stmt.lexemes, hm e he]
    rfl
  · refine ⟨_, rfl, fun _ s hok => ?_⟩
    cases hok
    rfl

theorem Stmt.written_print (ih : Faithful n)
    (h : (rule .printStatement).Bears n owner ns ls) : Stmt.WrittenIn ns ls := by
  obtain ⟨chars, ms, rfl, hbody⟩ := h.up.node (.inl rfl)
  obtain ⟨_, hrest, rfl⟩ := Bears.opener hbody fun _ => rfl
  obtain ⟨_, _, _, _, hvalue, hsemi, rfl, rfl⟩ := Bears.seq hrest
  obtain ⟨rfl, rfl⟩ := hsemi.mark fun _ => rfl
  obtain ⟨m, rfl, hm⟩ := ih.expr (Nat.zero_le 8) hvalue
  refine ⟨_, rfl, fun _ s hok => ?_⟩
  obtain ⟨e, he, hok⟩ := bind_eq_ok.1 hok
  cases hok
  rw [Stmt.lexemes, hm e he]

theorem Stmt.written_return (ih : Faithful n)
    (h : (rule .returnStatement).Bears n owner ns ls) : Stmt.WrittenIn ns ls := by
  obtain ⟨chars, ms, rfl, hbody⟩ := h.up.node (.inl rfl)
  obtain ⟨_, hrest, rfl⟩ := Bears.opener hbody fun _ => rfl
  obtain ⟨_, _, _, _, hvalue, hsemi, rfl, rfl⟩ := Bears.seq hrest
  obtain ⟨rfl, rfl⟩ := hsemi.mark fun _ => rfl
  obtain hvalue | ⟨rfl, rfl⟩ := hvalue.optional
  · obtain ⟨m, rfl, hm⟩ := ih.expr (Nat.zero_le 8) hvalue
    refine ⟨_, rfl, fun _ s hok => ?_⟩
    obtain ⟨e, he, hok⟩ := bind_eq_ok.1 hok
    cases hok
    rw [Stmt.lexemes, hm e he]
  · refine ⟨_, rfl, fun _ s hok => ?_⟩
    cases hok
    rfl

theorem Stmt.written_if (ih : Faithful n) (h : (rule .ifStatement).Bears n owner ns ls) :
    Stmt.WrittenIn ns ls := by
  obtain ⟨chars, ms, rfl, hbody⟩ := h.up.node (.inl rfl)
  obtain ⟨_, hrest, rfl⟩ := Bears.opener hbody fun _ => rfl
  obtain ⟨_, _, _, _, hopen, hrest₁, rfl, rfl⟩ := Bears.seq hrest
  obtain ⟨_, _, _, _, htest, hrest₂, rfl, rfl⟩ := Bears.seq hrest₁
  obtain ⟨_, _, _, _, hclose, hrest₃, rfl, rfl⟩ := Bears.seq hrest₂
  obtain ⟨_, _, _, _, hthen, helse, rfl, rfl⟩ := Bears.seq hrest₃
  obtain ⟨rfl, rfl⟩ := hopen.mark fun _ => rfl
  obtain ⟨rfl, rfl⟩ := hclose.mark fun _ => rfl
  obtain ⟨test, rfl, htest'⟩ := ih.expr (Nat.zero_le 8) htest
  obtain ⟨consequent, rfl, -, hthen'⟩ := ih.stmt hthen
  obtain helse | ⟨rfl, rfl⟩ := helse.optional
  · have hopener : (phrase (opener .kwElse ['e', 'l', 's', 'e'] ++ []) (rule .statement)).Bears n
        .ifStatement _ _ := helse
    obtain ⟨_, hother, rfl⟩ := hopener.opener fun _ => rfl
    obtain ⟨alternative, rfl, -, hother'⟩ := ih.stmt hother
    refine ⟨_, rfl, fun _ s hok => ?_⟩
    obtain ⟨e, he, hok⟩ := bind_eq_ok.1 hok
    obtain ⟨a, ha, hok⟩ := bind_eq_ok.1 hok
    obtain ⟨b, hb, hok⟩ := bind_eq_ok.1 hok
    cases hok
    rw [Stmt.lexemes, htest' e he, hthen' a ha, hother' b hb]
    simp [Lexeme.parens]
  · refine ⟨_, rfl, fun _ s hok => ?_⟩
    obtain ⟨e, he, hok⟩ := bind_eq_ok.1 hok
    obtain ⟨a, ha, hok⟩ := bind_eq_ok.1 hok
    cases hok
    rw [Stmt.lexemes, htest' e he, hthen' a ha]
    simp [Lexeme.parens]

theorem Stmt.written_block (ih : Faithful n) (h : (rule .blockStatement).Bears n owner ns ls) :
    Stmt.WrittenIn ns ls := by
  obtain ⟨chars, ms, rfl, hbody⟩ := h.up.node (.inl rfl)
  obtain ⟨items, hitems, rfl, rfl⟩ := hbody.braced fun _ => rfl
  refine ⟨_, rfl, fun _ s hok => ?_⟩
  obtain ⟨ss, hss, hok⟩ := bind_eq_ok.1 hok
  cases hok
  rw [Stmt.lexemes, Stmt.lexemesAll_of_items (fun i hi => ih.stmt (hitems i hi)) hss]

theorem Stmt.written_expression (ih : Faithful n)
    (h : (rule .expressionStatement).Bears n owner ns ls) : Stmt.WrittenIn ns ls := by
  obtain ⟨chars, ms, rfl, hbody⟩ := h.up.node (.inl rfl)
  obtain ⟨_, _, _, _, hvalue, hsemi, rfl, rfl⟩ := Bears.seq hbody
  obtain ⟨rfl, rfl⟩ := hsemi.mark fun _ => rfl
  obtain ⟨m, rfl, hm⟩ := ih.expr (Nat.zero_le 8) hvalue
  refine ⟨_, rfl, fun _ s hok => ?_⟩
  obtain ⟨e, he, hok⟩ := bind_eq_ok.1 hok
  cases hok
  rw [Stmt.lexemes, hm e he]

theorem Stmt.written (ih : Faithful n) (h : (rule .statement).Bears (n + 1) owner ns ls) :
    Stmt.Written ns ls := by
  obtain ⟨chars, ms, rfl, hbody⟩ := h.node (.inl rfl)
  have hin : Stmt.WrittenIn ms ls := by
    obtain h | h := hbody.alt
    · exact Stmt.written_function ih h
    obtain h | h := h.alt
    · exact Stmt.written_variable ih h
    obtain h | h := h.alt
    · exact Stmt.written_print ih h
    obtain h | h := h.alt
    · exact Stmt.written_return ih h
    obtain h | h := h.alt
    · exact Stmt.written_if ih h
    obtain h | h := h.alt
    · exact Stmt.written_block ih h
    · exact Stmt.written_expression ih h
  obtain ⟨m, rfl, hm⟩ := hin
  exact ⟨_, rfl, rfl, hm chars⟩

/-- What is read is written as it stands, however deep rules stand inside each other. -/
theorem faithful (n : Nat) : Faithful n := by
  induction n with
  | zero =>
    have hnone : ∀ {r : Rule} {owner : Rule} {ns : List Node} {ls : List Lexeme},
        ¬(rule r).Bears 0 owner ns ls := by
      rintro r owner ns ls ⟨ts, hts, -⟩
      cases hts
    exact ⟨fun _ h => (hnone h).elim, fun h => (hnone h).elim, fun h => (hnone h).elim⟩
  | succ n ih => exact ⟨Expr.written ih, Expr.written_primary ih, Stmt.written ih⟩

/-! ## Scripts -/

theorem Program.written (h : (rule .script).Bears n owner ns ls) {p : Program}
    (hok : Program.ofNodes ns = .ok p) : p.lexemes = ls := by
  obtain ⟨chars, ms, rfl, hbody⟩ := h.up.node (.inl rfl)
  obtain ⟨_, _, _, _, hempty, hrest, rfl, rfl⟩ := Bears.seq hbody
  obtain ⟨_, _, _, _, hmany, hend, rfl, rfl⟩ := Bears.seq hrest
  obtain ⟨rfl, rfl⟩ := hempty.empty
  obtain ⟨items, hitems, rfl, rfl⟩ := hmany.many
  obtain ⟨chars', ms, rfl, hfinish⟩ := Bears.node hend.up (.inl rfl)
  obtain ⟨rfl, rfl⟩ := hfinish.finish
  obtain ⟨ss, hss, hok⟩ := bind_eq_ok.1 hok
  cases hok
  rw [List.nil_append, Stmt.allOfNodes_finish _ rfl] at hss
  rw [Program.lexemes, Stmt.lexemesAll_of_items (fun i hi => (faithful n).stmt (hitems i hi)) hss]
  simp

theorem Grammar.rest_of_parse_seq {gap : Gap} {p q : Pattern} {cs rest : List Char} {y : Yield}
    (h : (seq gap p q).parse cs = some (y, rest)) : ∃ cs' y', q.parse cs' = some (y', rest) := by
  rw [Pattern.parse] at h
  obtain ⟨m, -, hsecond⟩ := Option.bind_eq_some_iff.1 h
  obtain ⟨m', hgap, heq⟩ := Option.map_eq_some_iff.1 hsecond
  obtain ⟨m'', hq, rfl⟩ := Option.map_eq_some_iff.1 hgap
  cases heq
  exact ⟨_, _, hq⟩

/-- The match of a script leaves nothing. -/
theorem Grammar.rest_of_parse_script {cs rest : List Char} {y : Yield}
    (h : Rule.script.parse cs = some (y, rest)) : rest = [] := by
  rw [Rule.parse_eq] at h
  obtain ⟨⟨z, rest'⟩, hbody, heq⟩ := Option.map_eq_some_iff.1 h
  cases heq
  obtain ⟨_, _, hstatements⟩ := rest_of_parse_seq hbody
  obtain ⟨cs', y', hend⟩ := rest_of_parse_seq hstatements
  change Rule.endOfInput.parse cs' = some (y', rest') at hend
  rw [Rule.parse_eq] at hend
  cases cs' with
  | nil =>
    cases hend
    rfl
  | cons c cs' => cases hend

/-- The trees that a script is read from are matched at it, to its end. -/
theorem Program.matches_of_matchScript {cs : List Char} {ts : List Tree}
    (h : Program.matchScript cs = .ok ts) : (rule .script).Matches cs ts [] := by
  unfold Program.matchScript at h
  split at h
  · next m hm =>
    cases h
    have hparse : Rule.script.parse cs = some (yieldAll m.parts, m.rest) := by
      rw [Rule.parse, hm]
      rfl
    rw [← rest_of_parse_script hparse]
    exact Rule.matches_run hm
  · cases h

/-- What a script is matched with is derived, and consists of the characters of the script. -/
theorem Program.derives_of_matchScript {cs : List Char} {ts : List Tree}
    (h : Program.matchScript cs = .ok ts) :
    (∃ n, (rule .script).Derives n ts) ∧ textAll ts = cs := by
  have hmatches := Program.matches_of_matchScript h
  exact ⟨hmatches.derives, by rw [← hmatches.text_append, List.append_nil]⟩

/-- Nothing is lost, duplicated or reordered between a script and its program. The leaves of the
match are the script; those that are not terminals are blanks and comments; and the terminals,
without the parentheses that group, say what is read off the program in order. -/
theorem Program.leaves_of_read {s : String} {p : Program} (h : Program.read s = .ok p) :
    ∃ ts n, Program.matchScript s.toList = .ok ts ∧ (rule .script).Derives n ts ∧
      (Tree.leavesAll .script ts).flatMap Leaf.text = s.toList ∧
      (∀ t, .layout t ∈ Tree.leavesAll .script ts → t ≠ [] ∧ Layout.Stretch t) ∧
      ((Tree.terminalsAll .script ts).filter (!·.isGrouping)).map Terminal.lexeme = p.lexemes := by
  obtain ⟨ts, hmatch, hok⟩ := bind_eq_ok.1 h
  obtain ⟨⟨n, hderives⟩, htext⟩ := Program.derives_of_matchScript hmatch
  refine ⟨ts, n, hmatch, hderives, ?_, fun t ht => hderives.stretch_of_mem ht, ?_⟩
  · rw [Tree.flatMap_text_leavesAll, htext]
  · have hmirrors := Program.mirrors_ofNodes (Tree.locate ts)
    rw [Tree.eraseAll_locate] at hmirrors
    have hwritten : p.erase.lexemes = lexemesAll .script ts :=
      Program.written ⟨ts, hderives, rfl, rfl⟩ (hmirrors.ok_iff.2 ⟨p, hok, rfl⟩)
    rw [Program.lexemes, Program.erase, Stmt.lexemesAll_erase] at hwritten
    exact hwritten.symm

/-- Of two pairs of parentheses the one around the callee goes, and the one around the argument
stays. -/
theorem Program.leaves_of_read_callee : ∃ p, Program.read "print (a)(\"b\"); // c" = .ok p ∧
    ∃ ts n, Program.matchScript "print (a)(\"b\"); // c".toList = .ok ts ∧
      (rule .script).Derives n ts ∧
      (Tree.leavesAll .script ts).flatMap Leaf.text = "print (a)(\"b\"); // c".toList ∧
      (∀ t, .layout t ∈ Tree.leavesAll .script ts → t ≠ [] ∧ Layout.Stretch t) ∧
      ((Tree.terminalsAll .script ts).filter (!·.isGrouping)).map Terminal.lexeme =
        [.mark ['p', 'r', 'i', 'n', 't'], .name "a", .mark ['('], .mark ['"'], .value (.string "b"),
          .mark ['"'], .mark [')'], .mark [';']] := by
  have hname : Ident.WellFormed ⟨"a", .nowhere⟩ := show IsName ['a'] by decide
  have hquoted : (Token.quoted ['b']).Valid := rfl
  have hstring : Literal.Spelled (.string "b") (.quoted ['b']) := .string hquoted
  have hprint : Stmt.Spelled (.print .nowhere (.call .nowhere (.ident ⟨"a", .nowhere⟩)
      [.literal .nowhere (.string "b")])) _ :=
    .print (.call (Nat.zero_le 8) (.group (.ident hname)) (.cons (.literal hstring) .nil))
  have hlex : Lexes [.kwPrint, .symbol .openParen, .word ['a'], .symbol .closeParen,
      .symbol .openParen, .quoted ['b'], .symbol .closeParen, .symbol .semicolon]
      "print (a)(\"b\"); // c".toList [] :=
    ⟨" (a)(\"b\"); // c".toList, rfl, by rintro c ⟨⟩; rfl,
      "a)(\"b\"); // c".toList, rfl, Symbol.ends_of_extension rfl _,
      ")(\"b\"); // c".toList, rfl, by rintro c ⟨⟩; rfl,
      "(\"b\"); // c".toList, rfl, Symbol.ends_of_extension rfl _,
      "\"b\"); // c".toList, rfl, Symbol.ends_of_extension rfl _,
      "); // c".toList, rfl, trivial,
      "; // c".toList, rfl, Symbol.ends_of_extension rfl _,
      " // c".toList, rfl, Symbol.ends_of_extension rfl _, rfl⟩
  obtain ⟨p, hread, herase⟩ := Program.read_of_lexes (p := ⟨.nowhere, _⟩) (.cons hprint .nil) hlex
  obtain ⟨ts, n, hmatch, hderives, htext, hlayout, hlexemes⟩ := Program.leaves_of_read hread
  refine ⟨p, hread, ts, n, hmatch, hderives, htext, hlayout, hlexemes.trans ?_⟩
  rw [Program.lexemes, ← Stmt.lexemesAll_erase]
  change Stmt.lexemesAll p.erase.body = _
  rw [herase]
  rfl

end Scoped
