import Scoped.Proofs.Searches
import Scoped.Proofs.Tokens

/-!
# Words

Names and reserved words are told apart by the longest word at the start of the text, for words of
any length : a name may start or end like a reserved word, and a rule for a reserved word never
takes the start of a longer word. `Rule.words` lists the words that each of the rules for reserved
words stands for. Each such rule tries its texts in order and then looks whether a word goes on; as
none of its texts starts another one, the first text that fits is the only one that could be whole.

`Rule.words_whole` says for every text what the rules match, and that at most one of them does.
-/

namespace Scoped.Grammar

open Pattern

variable {w : List Char}

/-! ## The longest word -/

/-- The text starts with the word, which is its longest one, and goes on with the rest. -/
structure LongestWord (cs w rest : List Char) : Prop where
  append : w ++ rest = cs
  chars : ∀ c ∈ w, isWordChar c = true
  longest : ∀ w', w' <+: cs → (∀ c ∈ w', isWordChar c = true) → w'.length ≤ w.length

theorem longestWord_word (cs : List Char) : LongestWord cs (word cs) (afterWord cs) := by
  refine ⟨word_append_afterWord cs, List.all_eq_true.1 List.all_takeWhile, ?_⟩
  rintro w' ⟨rest, rfl⟩ hw'
  rw [word, List.takeWhile_append_of_pos hw', List.length_append]
  exact Nat.le_add_right _ _

/-- A word is a name if it starts with no digit and is not reserved. -/
theorem isName_word (cs : List Char) : IsName (word cs) ↔
    word cs ≠ [] ∧ (∀ d ∈ (word cs).head?, d.isDigit = false) ∧ word cs ∉ keywords := by
  have hchars := (longestWord_word cs).chars
  cases hw : word cs with
  | nil => simp [IsName]
  | cons c w =>
    rw [hw] at hchars
    have hstart : isWordStart c = true ↔ c.isDigit = false := by
      refine ⟨isDigit_of_isWordStart, fun hdigit => ?_⟩
      have hc := hchars c List.mem_cons_self
      rw [isWordChar, Char.isAlphanum, hdigit, Bool.or_false] at hc
      exact hc
    constructor
    · rintro ⟨⟨d, w', heq, hd⟩, -, hkey⟩
      cases heq
      exact ⟨List.cons_ne_nil _ _, by simpa using hstart.1 hd, hkey⟩
    · rintro ⟨-, hdigit, hkey⟩
      exact ⟨⟨c, w, rfl, hstart.2 (hdigit c rfl)⟩, hchars, hkey⟩

/-! ## The rules for reserved words -/

namespace Rule

/-- The rules that match reserved words, each its own. -/
def reserved : List Rule :=
  [booleanLiteral, kwLet, kwFn, kwReturn, kwPrint, kwIf, kwElse, nilLiteral, andOperator,
    orOperator]

/-- The reserved words that a rule matches. -/
def words : Rule → List (List Char)
  | kwLet => [['l', 'e', 't']]
  | kwFn => [['f', 'n']]
  | kwReturn => [['r', 'e', 't', 'u', 'r', 'n']]
  | kwPrint => [['p', 'r', 'i', 'n', 't']]
  | kwIf => [['i', 'f']]
  | kwElse => [['e', 'l', 's', 'e']]
  | nilLiteral => [['n', 'i', 'l']]
  | andOperator => [['a', 'n', 'd']]
  | orOperator => [['o', 'r']]
  | booleanLiteral => [['t', 'r', 'u', 'e'], ['f', 'a', 'l', 's', 'e']]
  | _ => []

/-- The words of the rules are the reserved ones, each once. -/
theorem words_perm_keywords : (reserved.flatMap words).Perm keywords := by
  decide

theorem eq_of_mem_words : ∀ r ∈ reserved, ∀ r' ∈ reserved, ∀ w ∈ r.words, w ∈ r'.words →
    r = r' := by
  decide

theorem kind_of_mem_reserved : ∀ r ∈ reserved, r.kind = .atomic := by
  decide

theorem mem_keywords_of_mem_words {r : Rule} (hr : r ∈ reserved) (hw : w ∈ r.words) :
    w ∈ keywords :=
  words_perm_keywords.mem_iff.1 (List.mem_flatMap.2 ⟨r, hr, hw⟩)

/-- The rule tries its words in order, and then looks whether a word goes on. -/
theorem body_of_mem_reserved {r : Rule} (hr : r ∈ reserved) :
    ∃ p, r.body = wholeWord p ∧ IsTexts p r.words := by
  simp only [reserved, List.mem_cons, List.not_mem_nil, or_false] at hr
  rcases hr with rfl | rfl | rfl | rfl | rfl | rfl | rfl | rfl | rfl | rfl
  · exact ⟨_, rfl, (isTexts_text _).alt (isTexts_text _)⟩
  all_goals exact ⟨_, rfl, isTexts_text _⟩

/-- A rule for reserved words matches the longest word, if that is one of its own. -/
theorem parse_reserved {r : Rule} (hr : r ∈ reserved) (cs : List Char) :
    r.parse cs = if word cs ∈ r.words then
      some (.ofNode r (.ofText (word cs)), afterWord cs) else none := by
  obtain ⟨p, hbody, htexts⟩ := body_of_mem_reserved hr
  have hfree : ∀ r ∈ reserved, PrefixFree r.words := by decide
  have hchars : ∀ w ∈ r.words, ∀ c ∈ w, isWordChar c = true := fun w hw =>
    isWordChar_of_mem_keywords w (mem_keywords_of_mem_words hr hw)
  rw [parse_atomic (kind_of_mem_reserved r hr), hbody, htexts.parse_wholeWord hchars (hfree r hr)]
  by_cases hw : word cs ∈ r.words
  · rw [if_pos hw, if_pos hw]
    rfl
  · rw [if_neg hw, if_neg hw]
    rfl

/-- An atomic rule finds one node, which holds the text that it takes. -/
theorem found_atomic {r : Rule} (hr : r.kind = .atomic) (cs : List Char) :
    (r.run cs).map Match.found =
      (r.parse cs).map fun m => ([.node r [.terminal m.1.full]], m.2) := by
  rw [parse, run, Pattern.run]
  cases r.body.run r.rank r.ranked_body cs with
  | none => rfl
  | some m =>
    have hfull : (Tree.yieldAll (r.wrap m.parts)).full = Tree.textAll m.parts := by
      rw [Tree.full_yieldAll, r.textAll_wrap]
    show some (r.wrap m.parts, m.rest) =
      some ([.node r [.terminal (Tree.yieldAll (r.wrap m.parts)).full]], m.rest)
    rw [hfull, r.wrap_atomic hr]

/-- The rule matches the text exactly under the condition, and what it takes is the whole word. -/
def TakesWord (r : Rule) (cs w rest : List Char) (condition : Prop) : Prop :=
  ((r.run cs).isSome = true ↔ condition) ∧
    ∀ m, r.run cs = some m → m.found = ([.node r [.terminal w]], rest)

theorem takesWord_of_parse {r : Rule} (hr : r.kind = .atomic) {cs w rest : List Char} {P : Prop}
    [Decidable P] (h : r.parse cs = if P then some (.ofNode r (.ofText w), rest) else none) :
    r.TakesWord cs w rest P := by
  have hfound := found_atomic hr cs
  rw [h] at hfound
  by_cases hP : P
  · rw [if_pos hP] at hfound
    obtain ⟨m, hm, hparts⟩ := Option.map_eq_some_iff.1 hfound
    rw [TakesWord, hm]
    refine ⟨iff_of_true rfl hP, fun m' heq => ?_⟩
    cases heq
    exact hparts
  · rw [if_neg hP] at hfound
    have hnone : r.run cs = none := Option.map_eq_none_iff.1 hfound
    rw [TakesWord, hnone]
    refine ⟨iff_of_false Bool.false_ne_true hP, fun m heq => ?_⟩
    cases heq

theorem takesWord_identifier (cs : List Char) : identifier.TakesWord cs (word cs) (afterWord cs)
    (word cs ≠ [] ∧ (∀ d ∈ (word cs).head?, d.isDigit = false) ∧ word cs ∉ keywords) := by
  obtain ⟨hsome, hfound⟩ := takesWord_of_parse rfl (parse_identifier cs)
  exact ⟨hsome.trans (isName_word cs), hfound⟩

theorem takesWord_reserved {r : Rule} (hr : r ∈ reserved) (cs : List Char) :
    r.TakesWord cs (word cs) (afterWord cs) (word cs ∈ r.words) :=
  takesWord_of_parse (kind_of_mem_reserved r hr) (parse_reserved hr cs)

end Rule

/-- For every text, with its longest word and what follows it : the rule for names matches exactly
if the word is not empty, starts with no digit and is none of the reserved words, and each of the
rules for reserved words exactly if the word is one of its own; what is matched is the whole word.
At most one of these rules matches. -/
theorem Rule.words_whole (cs : List Char) : ∃ w rest, LongestWord cs w rest ∧
    identifier.TakesWord cs w rest
      (w ≠ [] ∧ (∀ d ∈ w.head?, d.isDigit = false) ∧ w ∉ keywords) ∧
    (∀ r ∈ reserved, r.TakesWord cs w rest (w ∈ r.words)) ∧
    ∀ r ∈ identifier :: reserved, ∀ r' ∈ identifier :: reserved,
      (r.run cs).isSome = true → (r'.run cs).isSome = true → r = r' := by
  have hname := takesWord_identifier cs
  have hreserved := fun r hr => takesWord_reserved (r := r) hr cs
  refine ⟨word cs, afterWord cs, longestWord_word cs, hname, hreserved, ?_⟩
  -- a reserved word is no name, and belongs to one rule
  have hnot : ∀ r ∈ reserved, (r.run cs).isSome = true → ¬(identifier.run cs).isSome = true := by
    intro r hr h hidentifier
    have hkeyword := mem_keywords_of_mem_words hr ((hreserved r hr).1.1 h)
    exact (hname.1.1 hidentifier).2.2 hkeyword
  simp only [List.mem_cons]
  rintro r (rfl | hr) r' (rfl | hr') h h'
  · rfl
  · exact absurd h (hnot r' hr' h')
  · exact absurd h' (hnot r hr h)
  · exact eq_of_mem_words r hr r' hr' _ ((hreserved r hr).1.1 h) ((hreserved r' hr').1.1 h')

end Scoped.Grammar
