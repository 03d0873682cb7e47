import Scoped.Proofs.Completeness
import Scoped.Proofs.Faithfulness
import Scoped.Proofs.Shapes

/-!
# String literals

Between its quotes a string literal is a sequence of items : a character that stands for itself, or
a backslash with the character after it. The grammar decides where the literal ends, and decoding
goes over its characters once more. Both take the items one by one, so a literal ends at the first
quote that is no part of an item (`Item.quotedPart_text`), and it denotes the characters that the
items stand for (`unescape_text`).

In turn, whatever the grammar takes for a string literal is made of items (`items_of_matches`), so
decoding never meets a backslash with nothing after it. The main statement is
`Literal.strings_decoded`.
-/

namespace Scoped

open Grammar

namespace Literal

/-- A part of a string literal between its quotes. -/
inductive Item where
  /-- A character that stands for itself. -/
  | plain (c : Char) (notQuote : c ≠ '"') (notBackslash : c ≠ '\\')
  /-- A backslash and the character after it. -/
  | escaped (c : Char)

/-- A string as a literal, with a backslash before quotes and backslashes. -/
def quote (s : String) : List Char :=
  '"' :: (s.toList.flatMap (fun c => if c = '"' ∨ c = '\\' then ['\\', c] else [c]) ++ ['"'])

/-- Decodes like `unescape`, but fails at a backslash with nothing after it. -/
def unescapeComplete? (read : List Char) : List Char → Option (List Char)
  | [] => some read.reverse
  | ['\\'] => none
  | '\\' :: c :: cs => unescapeComplete? (unescapeChar c :: read) cs
  | c :: cs => unescapeComplete? (c :: read) cs

namespace Item

/-- The characters that a backslash turns into control characters. -/
def controls : List (Char × Char) := [('n', '\n'), ('t', '\t'), ('r', '\r'), ('0', '\x00')]

/-- The characters that an item is written with. -/
def text : Item → List Char
  | plain c _ _ => [c]
  | escaped c => ['\\', c]

/-- The character that an item stands for. -/
def meaning : Item → Char
  | plain c _ _ => c
  | escaped c => (controls.lookup c).getD c

/-- The literal with these items. -/
def literal (items : List Item) : List Char := '"' :: (items.flatMap text ++ ['"'])

/-- The string that the literal with these items denotes. -/
def denoted (items : List Item) : String := String.ofList (items.map meaning)

/-- A character as an item, with a backslash before it only where there must be one. -/
def ofChar (c : Char) : Item :=
  if quote : c = '"' then escaped c
  else if backslash : c = '\\' then escaped c
  else plain c quote backslash

theorem unescapeChar_eq (c : Char) : unescapeChar c = meaning (escaped c) := by
  unfold unescapeChar
  split
  · rfl
  · rfl
  · rfl
  · rfl
  · next hn ht hr h0 =>
    have hlookup : controls.lookup c = none := by
      rw [List.lookup_eq_none_iff]
      simpa [controls] using ⟨hn, ht, hr, h0⟩
    rw [meaning, hlookup, Option.getD_none]

/-- The items are complete. -/
theorem quotedPart_text (items : List Item) :
    quotedPart (items.flatMap text) = (items.flatMap text, []) := by
  induction items with
  | nil => rfl
  | cons item items ih =>
    rw [List.flatMap_cons]
    cases item with
    | plain c hq hb =>
      rw [text, List.singleton_append, quotedPart, ih] <;> simp [hq, hb]
    | escaped c => rw [text, List.cons_append, List.singleton_append, quotedPart, ih]

theorem unescapeComplete?_text (read : List Char) (items : List Item) :
    unescapeComplete? read (items.flatMap text) = some (read.reverse ++ items.map meaning) := by
  induction items generalizing read with
  | nil => simp [unescapeComplete?]
  | cons item items ih =>
    rw [List.flatMap_cons]
    cases item with
    | plain c hq hb =>
      rw [text, List.singleton_append, unescapeComplete?, ih]
      · simp [meaning]
      · simp [hb]
      · simp [hb]
    | escaped c =>
      rw [text, List.cons_append, List.singleton_append, unescapeComplete?, ih, unescapeChar_eq]
      simp

theorem meaning_ofChar (c : Char) : (ofChar c).meaning = c := by
  unfold ofChar
  split
  · next h => rw [h]; rfl
  · split
    · next h => rw [h]; rfl
    · rfl

theorem text_ofChar (c : Char) :
    (ofChar c).text = if c = '"' ∨ c = '\\' then ['\\', c] else [c] := by
  unfold ofChar
  split
  · next h => simp [h, text]
  · split
    · next h => simp [h, text]
    · next hq hb => simp [hq, hb, text]

theorem denoted_ofChar (s : String) : denoted (s.toList.map ofChar) = s := by
  have hid : meaning ∘ ofChar = id := funext meaning_ofChar
  rw [denoted, List.map_map, hid, List.map_id, String.ofList_toList]

theorem literal_ofChar (s : String) : literal (s.toList.map ofChar) = quote s := by
  rw [literal, quote, List.flatMap_map, ← funext text_ofChar]

end Item

/-- Where decoding is complete, it is what `unescape` does. -/
theorem unescapeFrom_of_complete {read cs ds : List Char}
    (h : unescapeComplete? read cs = some ds) : unescapeFrom read cs = ds := by
  fun_induction unescapeComplete? read cs with
  | case1 read => simpa [unescapeFrom] using h
  | case2 => cases h
  | case3 read c cs ih =>
    rw [unescapeFrom]
    exact ih h
  | case4 read c cs hb hb' ih =>
    rw [unescapeFrom]
    · exact ih h
    · exact hb
    · exact hb'

theorem unescape_text (items : List Item) :
    unescape (items.flatMap Item.text) = items.map Item.meaning :=
  unescapeFrom_of_complete (Item.unescapeComplete?_text [] items)

/-- A complete text is made of items. -/
theorem exists_items {raw : List Char} (h : quotedPart raw = (raw, [])) :
    ∃ items : List Item, raw = items.flatMap Item.text := by
  fun_induction quotedPart raw with
  | case1 => exact ⟨[], rfl⟩
  | case2 cs => simp at h
  | case3 => simp at h
  | case4 c cs ih =>
    simp only [Prod.mk.injEq, List.cons.injEq, true_and] at h
    obtain ⟨items, hitems⟩ := ih (Prod.ext h.1 h.2)
    exact ⟨.escaped c :: items, by rw [List.flatMap_cons, ← hitems]; rfl⟩
  | case5 c cs hq hb hb' ih =>
    simp only [Prod.mk.injEq, List.cons.injEq, true_and] at h
    obtain ⟨items, hitems⟩ := ih (Prod.ext h.1 h.2)
    have hc : c ≠ '\\' := by
      rintro rfl
      cases cs with
      | nil => exact hb rfl rfl
      | cons d ds => exact hb' d ds rfl rfl
    exact ⟨.plain c (fun h => hq h) hc :: items, by rw [List.flatMap_cons, ← hitems]; rfl⟩

end Literal

open Literal

/-! ## Matches of string literals -/

theorem Grammar.Node.exists_eq_of_eraseAll {ns : List Node} {n : Node}
    (h : Node.eraseAll ns = [n]) : ∃ m, ns = [m] ∧ m.text = n.text := by
  cases ns with
  | nil => cases h
  | cons m ms =>
    obtain ⟨hm, hms⟩ := List.cons.inj h
    cases ms with
    | nil => exact ⟨m, rfl, by rw [← hm]; cases m; rfl⟩
    | cons m' ms' => cases hms

/-- What the grammar takes for a string literal is a quote, complete characters and a quote, and it
leaves one node for the literal and one for the characters. -/
theorem Grammar.nodes_of_matches_string {cs rest : List Char} {ts : List Tree}
    (h : (Pattern.rule .stringLiteral).Matches cs ts rest) (pos : Nat) :
    ∃ raw characters, quotedPart raw = (raw, []) ∧ cs = '"' :: (raw ++ '"' :: rest) ∧
      characters.text = raw ∧ (Tree.locateFrom [] [] pos ts).nodes =
        [⟨.stringLiteral, ⟨pos, pos + utf8Size ('"' :: (raw ++ ['"']))⟩, ['"', '"'],
          [characters]⟩] := by
  have hfull := h.text_append
  cases h with
  | @rule _ us _ _ hparse hbody =>
    obtain ⟨cs', rfl⟩ : ∃ cs', cs = '"' :: cs' := by
      cases hbody with
      | seq hquote _ =>
        cases hquote
        exact ⟨_, rfl⟩
    rw [Rule.parse_stringLiteral] at hparse
    split at hparse
    · next rest' hrest =>
      obtain ⟨hyield, rfl⟩ := Prod.mk.inj (Option.some.inj hparse)
      have hsplit := quotedPart_append cs'
      rw [hrest] at hsplit
      rw [Rule.wrap_node _ (.inr rfl)] at hyield hfull ⊢
      obtain ⟨htext, hchildren⟩ : ['"', '"'] = (Tree.yieldAll us).text ∧
          [⟨.stringCharacters, .nowhere, (quotedPart cs').1, []⟩] = (Tree.yieldAll us).nodes := by
        simpa [Tree.yieldAll, Tree.yield] using congrArg Yield.nodes hyield
      have hchars : Tree.textAll us = '"' :: ((quotedPart cs').1 ++ ['"']) := by
        have happend : Tree.textAll us ++ rest' =
            '"' :: ((quotedPart cs').1 ++ ['"']) ++ rest' := by
          simpa [hsplit] using hfull
        exact List.append_cancel_right happend
      have herase : Node.eraseAll (Tree.locateFrom [] [] pos us).nodes =
          [⟨.stringCharacters, .nowhere, (quotedPart cs').1, []⟩] := by
        simpa [Node.eraseAll, hchildren] using (Tree.locateFrom_yield us [] [] pos).1
      obtain ⟨characters, hcharacters, hraw⟩ := Node.exists_eq_of_eraseAll herase
      refine ⟨(quotedPart cs').1, characters, quotedPart_fst cs', by rw [hsplit], hraw, ?_⟩
      rw [Tree.nodes_node, hchars, ← htext, hcharacters]
    · cases hparse

theorem Literal.ofNode_string {span : Span} {chars : List Char} {characters : Node}
    {items : List Item} (h : characters.text = items.flatMap Item.text) :
    Literal.ofNode ⟨.stringLiteral, span, chars, [characters]⟩ =
      .ok (.string (Item.denoted items)) := by
  rw [Literal.ofNode]
  simp [h, unescape_text, Item.denoted]

/-- The text is a literal of the string : the grammar takes just this text for a string literal,
whatever follows it, and it is read as the string, also as a script of its own. -/
structure Literal.Denotes (text : List Char) (s : String) : Prop where
  matched : ∀ (rest : List Char) (pos : Nat), ∃ m n,
    Rule.stringLiteral.run (text ++ rest) = some m ∧ m.rest = rest ∧
    (Tree.locateFrom [] [] pos m.parts).nodes = [n] ∧ n.span = ⟨pos, pos + utf8Size text⟩ ∧
    Literal.ofNode n = .ok (.string s)
  read : ∃ p, Program.read (String.ofList (text ++ [';'])) = .ok p ∧
    p.erase = ⟨.nowhere, [.expr .nowhere (.literal .nowhere (.string s))]⟩

theorem Literal.denotes_literal (items : List Item) :
    Denotes (Item.literal items) (Item.denoted items) where
  matched rest pos := by
    have hinput : Item.literal items ++ rest =
        '"' :: (items.flatMap Item.text ++ '"' :: rest) := by
      simp [Item.literal]
    obtain ⟨y, hparse⟩ : ∃ y,
        Rule.stringLiteral.parse (Item.literal items ++ rest) = some (y, rest) := by
      rw [hinput, Rule.parse_stringLiteral, quotedPart_quote (Item.quotedPart_text items)]
      exact ⟨_, rfl⟩
    obtain ⟨m, hm, heq⟩ := Option.map_eq_some_iff.1 hparse
    obtain ⟨-, hrest⟩ := Prod.mk.inj heq
    obtain ⟨raw, characters, -, hcs, hraw, hnodes⟩ :=
      nodes_of_matches_string (Rule.matches_run hm) pos
    rw [hrest, hinput] at hcs
    obtain rfl : items.flatMap Item.text = raw := List.append_cancel_right (List.cons.inj hcs).2
    exact ⟨m, _, hm, hrest, hnodes, rfl, Literal.ofNode_string hraw⟩
  read := by
    have hvalid : (Token.quoted (items.flatMap Item.text)).Valid := Item.quotedPart_text items
    have hspelled : Stmt.SpelledAll
        [.expr .nowhere (.literal .nowhere (.string (Item.denoted items)))]
        [.quoted (items.flatMap Item.text), .symbol .semicolon] := by
      rw [Item.denoted, ← unescape_text]
      exact .cons (.expr (.literal (.string hvalid))) .nil
    have hlex : Lexes [.quoted (items.flatMap Item.text), .symbol .semicolon]
        (String.ofList (Item.literal items ++ [';'])).toList [] := by
      rw [String.toList_ofList]
      exact ⟨[';'], rfl, trivial, [], rfl, Symbol.ends_of_extension rfl _, rfl⟩
    exact Program.read_of_lexes (p := ⟨.nowhere, _⟩) hspelled hlex

/-! ## String literals of a script -/

/-- The node is one of these nodes, or stands below one of them. -/
inductive Grammar.Node.Within : Node → List Node → Prop
  | top {n : Node} {ns : List Node} : n ∈ ns → Within n ns
  | inner {n m : Node} {ns : List Node} : m ∈ ns → Within n m.children → Within n ns

namespace Grammar.Node

theorem not_within_nil {n : Node} : ¬n.Within [] := by
  rintro (h | ⟨h, -⟩) <;> cases h

theorem Within.of_append {n : Node} {ns ms : List Node} (h : n.Within (ns ++ ms)) :
    n.Within ns ∨ n.Within ms := by
  obtain h | ⟨h, hinner⟩ := h
  · exact (List.mem_append.1 h).imp .top .top
  · exact (List.mem_append.1 h).imp (.inner · hinner) (.inner · hinner)

theorem Within.of_singleton {n m : Node} (h : n.Within [m]) : n = m ∨ n.Within m.children := by
  obtain h | ⟨h, hinner⟩ := h
  · exact .inl (List.mem_singleton.1 h)
  · exact .inr (List.mem_singleton.1 h ▸ hinner)

end Grammar.Node

/-- Wherever in a match a string literal is, it is made of items. -/
theorem Grammar.items_of_matches {p : Pattern} {cs rest : List Char} {ts : List Tree}
    (h : p.Matches cs ts rest) (pos : Nat) {n : Node}
    (hn : n.Within (Tree.locateFrom [] [] pos ts).nodes) (hr : n.rule = .stringLiteral) :
    ∃ characters items, n.children = [characters] ∧
      characters.text = List.flatMap Item.text items := by
  induction h generalizing pos with
  | empty | finish | manyNone | ahead | notAhead =>
    rw [(Tree.spans_nil pos).1] at hn
    exact absurd hn Node.not_within_nil
  | text | char =>
    rw [Tree.nodes_terminal] at hn
    exact absurd hn Node.not_within_nil
  | seq _ _ ihp ihq | manyMore _ _ _ ihp ihq =>
    simp only [Tree.nodes_append, Tree.nodes_gap, List.nil_append] at hn
    exact hn.of_append.elim (ihp _) (ihq _)
  | altLeft _ ih | altRight _ ih | manyOne _ ih => exact ih pos hn
  | @rule r us cs rest hparse hbody ih =>
    have hnode (hkind : r.kind = .normal ∨ r.kind = .compound) : ∃ characters items,
        n.children = [characters] ∧ characters.text = List.flatMap Item.text items := by
      rw [r.wrap_node hkind, Tree.nodes_node] at hn
      obtain rfl | hinner := hn.of_singleton
      · obtain rfl : r = .stringLiteral := hr
        obtain ⟨raw, characters, hvalid, -, hraw, hnodes⟩ :=
          nodes_of_matches_string (.rule hparse hbody) pos
        rw [Rule.wrap_node _ hkind, Tree.nodes_node] at hnodes
        obtain ⟨items, hitems⟩ := exists_items hvalid
        exact ⟨characters, items, (Node.mk.inj (List.cons.inj hnodes).1).2.2.2, hraw.trans hitems⟩
      · exact ih pos hinner
    cases hkind : r.kind with
    | silent =>
      rw [r.wrap_silent hkind] at hn
      exact ih pos hn
    | normal => exact hnode (.inl hkind)
    | compound => exact hnode (.inr hkind)
    | atomic =>
      -- a rule of this kind leaves no nodes below its own, and that of strings is of another kind
      rw [r.wrap_atomic hkind, Tree.nodes_node, Tree.nodes_terminal] at hn
      obtain rfl | hinner := hn.of_singleton
      · obtain rfl : r = .stringLiteral := hr
        cases hkind
      · exact absurd hinner Node.not_within_nil

/-- A string literal is any sequence of items between quotes, and denotes the characters that its
items stand for; so every string has a literal, with a backslash before its quotes and backslashes.
In no match of a script does a string end with a backslash that has nothing after it. -/
theorem Literal.strings_decoded :
    (∀ items : List Item, Denotes (Item.literal items) (Item.denoted items)) ∧
    (∀ s : String, Denotes (quote s) s) ∧
    ∀ (script : List Char) (ts : List Tree) (n : Node), Program.matchScript script = .ok ts →
      n.Within (Tree.locate ts) → n.rule = .stringLiteral →
      ∃ characters, n.children = [characters] ∧
        unescapeComplete? [] characters.text = some (unescape characters.text) := by
  refine ⟨denotes_literal, fun s => ?_, fun script ts n hmatch hn hr => ?_⟩
  · have hdenotes := denotes_literal (s.toList.map Item.ofChar)
    rwa [Item.literal_ofChar, Item.denoted_ofChar] at hdenotes
  · obtain ⟨characters, items, hchildren, htext⟩ :=
      items_of_matches (Program.matches_of_matchScript hmatch) 0 hn hr
    refine ⟨characters, hchildren, ?_⟩
    rw [htext, Item.unescapeComplete?_text, unescape_text, List.reverse_nil, List.nil_append]

end Scoped
