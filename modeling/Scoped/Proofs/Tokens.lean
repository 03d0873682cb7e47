import Mathlib.Tactic.IntervalCases
import Scoped.Proofs.Phrases
import Scoped.Program.Basic

/-!
# Tokens

A script is a sequence of tokens with layout between them. `Lexes ts cs rest` says that the text
`cs` starts with the tokens `ts`, and goes on with `rest`. A token ends where it cannot go on
(`Token.Ends`), so `a<=b` does not start with the tokens `a` and `<`.

The first character of a token tells its kind (`Token.head_cases`), and a text starts with at most
one token (`Lexes.unique`). The rules for words, literals and operators read exactly one token
each, and so do texts that start no longer token. The lemmas say which one : `reads_identifier`,
`reads_opener`, `reads_operator`.
-/

namespace Scoped.Grammar

open Layout (skip)
open Pattern

variable {cs cs' mid rest rest' : List Char} {ns : List Node}

/-! ## Tokens and their ends -/

/-- The tokens that are not words or literals. -/
inductive Symbol where
  | openParen
  | closeParen
  | openBrace
  | closeBrace
  | comma
  | semicolon
  | assign
  | eq
  | ne
  | lt
  | le
  | gt
  | ge
  | add
  | sub
  | mul
  | div
  | rem
  | not
deriving DecidableEq, Repr

namespace Symbol

/-- A symbol as it is written. -/
def chars : Symbol → List Char
  | openParen => ['(']
  | closeParen => [')']
  | openBrace => ['\x7b']
  | closeBrace => ['\x7d']
  | comma => [',']
  | semicolon => [';']
  | assign => ['=']
  | eq => ['=', '=']
  | ne => ['!', '=']
  | lt => ['<']
  | le => ['<', '=']
  | gt => ['>']
  | ge => ['>', '=']
  | add => ['+']
  | sub => ['-']
  | mul => ['*']
  | div => ['/']
  | rem => ['%']
  | not => ['!']

/-- The character that would make the symbol a longer one, or a comment. -/
def extension? : Symbol → Option Char
  | assign | lt | gt | not => some '='
  | div => some '/'
  | _ => none

end Symbol

/-- A token. -/
inductive Token where
  /-- A name or a reserved word. -/
  | word (w : List Char)
  | integer (ds : List Char)
  /-- Digits before and after a point. -/
  | decimal (ds fs : List Char)
  /-- A string, by the characters between its quotes. -/
  | quoted (raw : List Char)
  | symbol (s : Symbol)
deriving DecidableEq, Repr

namespace Token

/-- A token as it is written. -/
def text : Token → List Char
  | word w => w
  | integer ds => ds
  | decimal ds fs => ds ++ '.' :: fs
  | quoted raw => '"' :: (raw ++ ['"'])
  | symbol s => s.chars

/-- The token does not go on with what follows. -/
def Ends : Token → List Char → Prop
  | word _, rest => WordEnds rest
  | integer _, rest => digits rest = [] ∧ fraction? rest = none
  | decimal _ _, rest => digits rest = []
  | quoted _, _ => True
  | symbol s, rest => ∀ c, s.extension? = some c → rest.head? ≠ some c

/-- The characters that a token is made of are of its kind. -/
def Valid : Token → Prop
  | word w => (∃ c w', w = c :: w' ∧ isWordStart c = true) ∧ ∀ c ∈ w, isWordChar c = true
  | integer ds => ds ≠ [] ∧ ∀ d ∈ ds, d.isDigit = true
  | decimal ds fs => (ds ≠ [] ∧ ∀ d ∈ ds, d.isDigit = true) ∧ fs ≠ [] ∧ ∀ d ∈ fs, d.isDigit = true
  | quoted raw => quotedPart raw = (raw, [])
  | symbol _ => True

/-- The token is a number. -/
def IsNumeral : Token → Prop
  | integer _ | decimal _ _ => True
  | _ => False

end Token

/-- The text starts with the tokens, and goes on with `rest`. -/
def Lexes : List Token → List Char → List Char → Prop
  | [], cs, rest => skip cs = skip rest
  | t :: ts, cs, rest => ∃ mid, skip cs = t.text ++ mid ∧ t.Ends mid ∧ Lexes ts mid rest

theorem Lexes.congr {ts : List Token} (h : Lexes ts cs rest) (hcs : skip cs = skip cs')
    (hrest : skip rest = skip rest') : Lexes ts cs' rest' := by
  induction ts generalizing cs cs' with
  | nil => exact hcs.symm.trans (h.trans hrest)
  | cons t ts ih =>
    obtain ⟨mid, hmid, hends, h⟩ := h
    exact ⟨mid, hcs.symm.trans hmid, hends, ih h rfl⟩

theorem lexes_append {ts us : List Token} :
    Lexes (ts ++ us) cs rest ↔ ∃ mid, Lexes ts cs mid ∧ Lexes us mid rest := by
  induction ts generalizing cs with
  | nil => exact ⟨fun h => ⟨cs, rfl, h⟩, fun ⟨mid, hcs, h⟩ => Lexes.congr h (Eq.symm hcs) rfl⟩
  | cons t ts ih =>
    constructor
    · rintro ⟨mid, hmid, hends, h⟩
      obtain ⟨mid', hts, hus⟩ := ih.1 h
      exact ⟨mid', ⟨mid, hmid, hends, hts⟩, hus⟩
    · rintro ⟨mid', ⟨mid, hmid, hends, hts⟩, hus⟩
      exact ⟨mid, hmid, hends, ih.2 ⟨mid', hts, hus⟩⟩

theorem lexes_cons {t : Token} {ts : List Token} :
    Lexes (t :: ts) cs rest ↔ ∃ mid, Lexes [t] cs mid ∧ Lexes ts mid rest := by
  rw [← lexes_append, List.singleton_append]

theorem lexes_cons_cons {t u : Token} {ts : List Token} :
    Lexes (t :: u :: ts) cs rest ↔ ∃ mid, Lexes [t, u] cs mid ∧ Lexes ts mid rest := by
  rw [← lexes_append, List.cons_append, List.singleton_append]

theorem lexes_append_cons {t : Token} {ts us : List Token} : Lexes (ts ++ t :: us) cs rest ↔
    ∃ mid mid', Lexes ts cs mid ∧ Lexes [t] mid mid' ∧ Lexes us mid' rest := by
  rw [lexes_append]
  constructor
  · rintro ⟨mid, hts, h⟩
    obtain ⟨mid', ht, hus⟩ := lexes_cons.1 h
    exact ⟨mid, mid', hts, ht, hus⟩
  · rintro ⟨mid, mid', hts, ht, hus⟩
    exact ⟨mid, hts, lexes_cons.2 ⟨mid', ht, hus⟩⟩

/-! ## The front of a text -/

theorem Token.valid_keyword {w : List Char} (hw : w ∈ keywords) : (word w).Valid := by
  have hstart : ∀ w ∈ keywords, isWordStart (w.headD ' ') = true := by decide
  refine ⟨?_, isWordChar_of_mem_keywords w hw⟩
  cases w with
  | nil => exact absurd hw (by decide)
  | cons c w' => exact ⟨c, w', rfl, hstart _ hw⟩

theorem Token.text_ne_nil {t : Token} (ht : t.Valid) : t.text ≠ [] := by
  cases t with
  | word w =>
    obtain ⟨⟨c, w', rfl, -⟩, -⟩ := ht
    exact List.cons_ne_nil c w'
  | integer ds => exact ht.1
  | decimal ds fs => exact List.append_ne_nil_of_left_ne_nil ht.1.1 _
  | quoted raw => exact List.cons_ne_nil _ _
  | symbol s => cases s <;> exact List.cons_ne_nil _ _

/-- A text starts with the first character of its first token. -/
theorem Lexes.head? {t : Token} {ts : List Token} (h : Lexes (t :: ts) cs rest) (ht : t.Valid) :
    (skip cs).head? = t.text.head? := by
  obtain ⟨mid, hcs, -⟩ := h
  rw [hcs, List.head?_append_of_ne_nil _ (Token.text_ne_nil ht)]

/-- Tokens are taken off the text. -/
theorem Lexes.length_lt {t : Token} (h : Lexes [t] cs rest) (ht : t.Valid) :
    (skip rest).length < (skip cs).length := by
  obtain ⟨mid, hcs, -, hmid⟩ := h
  have hlength := List.length_pos_iff.2 (Token.text_ne_nil ht)
  have hskip := Layout.length_skip_le mid
  rw [hcs, List.length_append, ← show skip mid = skip rest from hmid]
  omega

/-- Letters and the underscore come after the digits. -/
theorem lt_val_of_isWordStart {c : Char} (h : isWordStart c = true) : '9'.val < c.val := by
  obtain h | h := Bool.or_eq_true_iff.1 h
  · obtain h | h := Bool.or_eq_true_iff.1 h
    · have hle : 'A'.val ≤ c.val := (of_decide_eq_true h).1
      exact UInt32.lt_of_lt_of_le (by decide) hle
    · have hle : 'a'.val ≤ c.val := of_decide_eq_true (Bool.and_eq_true_iff.1 h).1
      exact UInt32.lt_of_lt_of_le (by decide) hle
  · obtain rfl := eq_of_beq h
    decide

theorem isDigit_of_isWordStart {c : Char} (h : isWordStart c = true) : c.isDigit = false := by
  by_contra hdigit
  have hle : c.val ≤ '9'.val :=
    of_decide_eq_true (Bool.and_eq_true_iff.1 (Bool.eq_true_of_not_eq_false hdigit)).2
  exact UInt32.not_lt.2 hle (lt_val_of_isWordStart h)

theorem Token.isDigit_head {ds : List Char} (h : ds ≠ [] ∧ ∀ d ∈ ds, d.isDigit = true) {c : Char}
    (hc : ds.head? = some c) : c.isDigit = true :=
  h.2 c (List.mem_of_mem_head? hc)

/-- The first character of a token tells its kind. -/
theorem Token.head_cases {t : Token} (ht : t.Valid) {c : Char} (hc : t.text.head? = some c) :
    (∃ w, t = word w ∧ isWordStart c = true) ∨ (t.IsNumeral ∧ c.isDigit = true) ∨
      (∃ raw, t = quoted raw ∧ c = '"') ∨ ∃ s, t = symbol s ∧ s.chars.head? = some c := by
  cases t with
  | word w =>
    obtain ⟨⟨d, w', rfl, hd⟩, -⟩ := ht
    cases hc
    exact .inl ⟨_, rfl, hd⟩
  | integer ds => exact .inr (.inl ⟨trivial, isDigit_head ht hc⟩)
  | decimal ds fs =>
    rw [text, List.head?_append_of_ne_nil _ ht.1.1] at hc
    exact .inr (.inl ⟨trivial, isDigit_head ht.1 hc⟩)
  | quoted raw =>
    cases hc
    exact .inr (.inr (.inl ⟨raw, rfl, rfl⟩))
  | symbol s => exact .inr (.inr (.inr ⟨s, rfl, hc⟩))

theorem Token.isBlank_head {t : Token} (ht : t.Valid) {c : Char} (hc : t.text.head? = some c) :
    isBlank c = false := by
  by_contra hblank
  simp only [isBlank, Bool.not_eq_false, Bool.or_eq_true, beq_iff_eq] at hblank
  obtain ⟨w, -, hw⟩ | ⟨-, hdigit⟩ | ⟨raw, -, rfl⟩ | ⟨s, -, hs⟩ := head_cases ht hc
  · obtain ((rfl | rfl) | rfl) | rfl := hblank <;> cases hw
  · obtain ((rfl | rfl) | rfl) | rfl := hblank <;> cases hdigit
  · revert hblank
    decide
  · revert hblank
    cases s <;> cases hs <;> decide

/-- A token that ends starts no layout. -/
theorem Token.skip_text {t : Token} (ht : t.Valid) {rest : List Char} (h : t.Ends rest) :
    skip (t.text ++ rest) = t.text ++ rest := by
  obtain ⟨c, cs, htext⟩ := List.exists_cons_of_ne_nil (text_ne_nil ht)
  have hc : t.text.head? = some c := by rw [htext]; rfl
  rw [htext, List.cons_append]
  refine Layout.skip_cons (isBlank_head ht hc) ?_
  rintro rfl
  -- only the symbol for division starts with a slash
  obtain ⟨w, -, hw⟩ | ⟨-, hdigit⟩ | ⟨raw, -, hquote⟩ | ⟨s, rfl, hs⟩ := head_cases ht hc
  · cases hw
  · cases hdigit
  · cases hquote
  · cases s <;> cases hs
    cases htext
    exact h '/' rfl

/-! ## Where tokens end -/

theorem Token.ends_nil (t : Token) : t.Ends [] := by
  cases t with
  | word w => exact fun c hc => by cases hc
  | integer ds => exact ⟨rfl, rfl⟩
  | decimal ds fs => exact rfl
  | quoted raw => trivial
  | symbol s => exact fun c _ h => by cases h

/-- A symbol that starts no longer one ends anywhere. -/
theorem Symbol.ends_of_extension {s : Symbol} (h : s.extension? = none) (rest : List Char) :
    (Token.symbol s).Ends rest := by
  intro c hc
  cases h.symm.trans hc

theorem digits_eq_nil_iff : digits cs = [] ↔ ∀ c ∈ cs.head?, c.isDigit = false := by
  cases cs with
  | nil => simp [digits]
  | cons c cs => cases hc : c.isDigit <;> simp [digits, hc]

theorem fraction?_cons_of_ne {c : Char} (hc : c ≠ '.') (cs : List Char) :
    fraction? (c :: cs) = none := by
  unfold fraction?
  split
  · next heq =>
    cases heq
    exact absurd rfl hc
  · rfl

theorem fraction?_point : fraction? ('.' :: cs) = none ↔ digits cs = [] := by
  simp [fraction?]

/-- A token that could go on with two characters goes on with the first one. -/
theorem Token.ends_cons {t : Token} {c : Char} (h : t.Ends [c]) (hc : c ≠ '.') (cs : List Char) :
    t.Ends (c :: cs) := by
  cases t with
  | word w => exact h
  | integer ds =>
    have hdigits : digits [c] = [] := h.1
    exact ⟨digits_eq_nil_iff.2 (by simpa using digits_eq_nil_iff.1 hdigits),
      fraction?_cons_of_ne hc cs⟩
  | decimal ds fs =>
    have hdigits : digits [c] = [] := h
    exact digits_eq_nil_iff.2 (by simpa using digits_eq_nil_iff.1 hdigits)
  | quoted raw => trivial
  | symbol s => exact h

theorem Token.ends_blank (t : Token) {c : Char} (hc : isBlank c = true) (cs : List Char) :
    t.Ends (c :: cs) := by
  simp only [isBlank, Bool.or_eq_true, beq_iff_eq] at hc
  have hends : t.Ends [c] := by
    cases t with
    | word w =>
      obtain ((rfl | rfl) | rfl) | rfl := hc <;> rintro d ⟨⟩ <;> rfl
    | integer ds =>
      obtain ((rfl | rfl) | rfl) | rfl := hc <;> exact ⟨rfl, rfl⟩
    | decimal ds fs =>
      obtain ((rfl | rfl) | rfl) | rfl := hc <;> rfl
    | quoted raw => trivial
    | symbol s =>
      obtain ((rfl | rfl) | rfl) | rfl := hc <;> rintro d hd ⟨⟩ <;> cases s <;> cases hd
  refine ends_cons hends ?_ cs
  rintro rfl
  revert hc
  decide

theorem digits_append_blank {c : Char} (h : digits (cs ++ rest) = []) (hc : isBlank c = true)
    (ds : List Char) : digits (cs ++ c :: ds) = [] := by
  cases cs with
  | nil => exact (Token.decimal [] []).ends_blank hc ds
  | cons d cs => exact digits_eq_nil_iff.2 (by simpa using digits_eq_nil_iff.1 h)

/-- A token that ends before a text ends before its start with a blank behind it. -/
theorem Token.Ends.append_blank {t : Token} {c : Char} (h : t.Ends (cs ++ rest))
    (hc : isBlank c = true) (ds : List Char) : t.Ends (cs ++ c :: ds) := by
  cases cs with
  | nil => exact t.ends_blank hc ds
  | cons d cs =>
    cases t with
    | word w => exact h
    | integer digs =>
      refine ⟨digits_append_blank h.1 hc ds, ?_⟩
      by_cases hd : d = '.'
      · subst hd
        exact fraction?_point.2 (digits_append_blank (fraction?_point.1 h.2) hc ds)
      · exact fraction?_cons_of_ne hd _
    | decimal digs fs => exact digits_append_blank h hc ds
    | quoted raw => trivial
    | symbol s => exact h

/-- Tokens up to the end of a text are there with a blank and more text behind it, of which the
layout reaches to `rest` even in a comment. -/
theorem Lexes.append_blank {ts : List Token} {c : Char} {ds : List Char} (h : Lexes ts cs [])
    (hts : ∀ t ∈ ts, t.Valid) (hc : isBlank c = true)
    (hrest : ∀ b, Layout.after b (c :: ds) = skip rest) : Lexes ts (cs ++ c :: ds) rest := by
  induction ts generalizing cs with
  | nil =>
    obtain ⟨b, hb⟩ := Layout.exists_state?_of_after (h : Layout.after false cs = [])
    exact (Layout.after_append_of_state? hb _).trans (hrest b)
  | cons t ts ih =>
    obtain ⟨ht, hts⟩ := List.forall_mem_cons.1 hts
    obtain ⟨mid, hmid, hends, h⟩ := h
    have hne : skip cs ≠ [] := by
      rw [hmid]
      exact List.append_ne_nil_of_left_ne_nil (Token.text_ne_nil ht) _
    have hslash : (c :: ds).head? ≠ some '/' := by
      rintro ⟨⟩
      cases hc
    have happend : skip (cs ++ c :: ds) = skip cs ++ c :: ds :=
      Layout.after_append_of_ne hne hslash
    rw [← List.append_nil mid] at hends
    refine ⟨mid ++ c :: ds, ?_, hends.append_blank hc ds, ih h hts⟩
    rw [happend, hmid, List.append_assoc]

theorem Symbol.head_chars {s : Symbol} {c : Char} (hc : s.chars.head? = some c) :
    isWordStart c = false ∧ c.isDigit = false ∧ c ≠ '"' := by
  cases s <;> cases hc <;> decide

/-- A token that is no word does not start as one. -/
theorem Token.head_text {t : Token} (ht : t.Valid) (hword : ∀ w, t ≠ word w) :
    ∀ c ∈ t.text.head?, isWordStart c = false := by
  intro c hc
  obtain ⟨w, rfl, -⟩ | ⟨-, hdigit⟩ | ⟨raw, -, rfl⟩ | ⟨s, -, hs⟩ := head_cases ht hc
  · exact absurd rfl (hword w)
  · by_contra hne
    rw [isDigit_of_isWordStart (Bool.eq_true_of_not_eq_false hne)] at hdigit
    cases hdigit
  · rfl
  · exact (Symbol.head_chars hs).1

/-! ## Symbols and reserved words -/

/-- A symbol is read as its text. -/
theorem Lexes.reads_symbol {s : Symbol} (h : Lexes [.symbol s] cs rest) :
    (text s.chars).Reads cs [] rest := by
  obtain ⟨mid, hcs, -, hmid⟩ := h
  exact reads_text.2 ⟨rfl, mid, hcs, hmid⟩

/-- The text of a symbol that is the start of no other token is read as the symbol. -/
theorem lexes_of_reads_symbol {s : Symbol} (hs : s.extension? = none)
    (h : (text s.chars).Reads cs ns rest) : ns = [] ∧ Lexes [.symbol s] cs rest := by
  obtain ⟨rfl, mid, hcs, hmid⟩ := reads_text.1 h
  refine ⟨rfl, mid, hcs, fun c hc => ?_, hmid⟩
  rw [hs] at hc
  cases hc

/-- A word is the longest word at the start of the text. -/
theorem lexes_word {w : List Char} (hw : ∀ c ∈ w, isWordChar c = true) :
    Lexes [.word w] cs rest ↔ word (skip cs) = w ∧ skip (afterWord (skip cs)) = skip rest := by
  constructor
  · rintro ⟨mid, hcs, hends, hmid⟩
    obtain ⟨hword, hafter⟩ := word_append hw hends
    rw [hcs]
    exact ⟨hword, by rw [Token.text, hafter]; exact hmid⟩
  · rintro ⟨hword, hafter⟩
    refine ⟨afterWord (skip cs), ?_, wordEnds_afterWord _, hafter⟩
    rw [Token.text, ← hword, word_append_afterWord]

/-- The longest word at the start of a text that starts with a token. -/
theorem Lexes.word_eq_iff {t : Token} {ts : List Token} {w : List Char}
    (h : Lexes (t :: ts) cs rest) (ht : t.Valid) (hw : (Token.word w).Valid) :
    word (skip cs) = w ↔ t = .word w := by
  obtain ⟨mid, hfirst, -⟩ := lexes_cons.1 h
  constructor
  · intro heq
    by_contra hne
    cases t with
    | word w' => exact hne (by rw [← heq, ((lexes_word ht.2).1 hfirst).1])
    | _ =>
      -- a text that starts with `w` starts with a letter or an underscore
      obtain ⟨⟨c, w', rfl, hstart⟩, -⟩ := hw
      have hhead : (skip cs).head? = some c := by
        rw [← word_append_afterWord (skip cs), heq]
        rfl
      rw [h.head? ht] at hhead
      have hnot := Token.head_text ht (by simp) c hhead
      rw [hstart] at hnot
      cases hnot
  · rintro rfl
    exact ((lexes_word hw.2).1 hfirst).1

/-- The rule matches the token and nothing else, and leaves this node. -/
def Rule.Takes (r : Rule) (t : Token) (n : Node) : Prop :=
  ∀ rest, t.Ends rest → r.parse (t.text ++ rest) = some (⟨[n], [], t.text⟩, rest)

theorem Rule.Takes.reads {r : Rule} {t : Token} {n : Node} (hr : r.Takes t n)
    (h : Lexes [t] cs rest) : (rule r).Reads cs [n] rest := by
  obtain ⟨mid, hcs, hends, hmid⟩ := h
  refine ⟨⟨[n], [], t.text⟩, mid, ?_, rfl, hmid⟩
  rw [Pattern.parse, hcs]
  exact hr mid hends

/-- A rule that matches one reserved word. -/
structure Rule.IsWord (r : Rule) (k : List Char) : Prop where
  body : r.body = wholeWord (Pattern.text k)
  kind : r.kind = .atomic
  valid : (Token.word k).Valid

theorem Rule.IsWord.takes {r : Rule} {k : List Char} (hr : r.IsWord k) :
    r.Takes (.word k) ⟨r, .nowhere, k, []⟩ := by
  intro rest hends
  obtain ⟨hword, hafter⟩ := word_append hr.valid.2 hends
  rw [Token.text, Rule.parse_keyword hr.body hr.kind hr.valid.2, hword, hafter, if_pos rfl]
  rfl

theorem Rule.IsWord.reads {r : Rule} {k : List Char} (hr : r.IsWord k) :
    (rule r).Reads cs ns rest ↔ Lexes [.word k] cs rest ∧ ns = [⟨r, .nowhere, k, []⟩] := by
  refine ⟨?_, fun ⟨h, hns⟩ => hns ▸ hr.takes.reads h⟩
  rintro ⟨y, rest', h, rfl, hrest⟩
  rw [Pattern.parse, Rule.parse_keyword hr.body hr.kind hr.valid.2] at h
  split at h <;> cases h
  next hk => exact ⟨(lexes_word hr.valid.2).2 ⟨hk, hrest⟩, rfl⟩

theorem Rule.IsWord.fails {r : Rule} {k : List Char} (hr : r.IsWord k) :
    (rule r).Fails cs ↔ word (skip cs) ≠ k := by
  rw [Fails, Pattern.parse, Rule.parse_keyword hr.body hr.kind hr.valid.2]
  simp

/-- A phrase that opens with a reserved word is read after the token of the word. -/
theorem reads_opener {r : Rule} {k : List Char} (hr : r.IsWord k) {ps : List Pattern}
    {last : Pattern} : (phrase (opener r k ++ ps) last).Reads cs ns rest ↔
      ∃ mid, Lexes [.word k] cs mid ∧ (phrase ps last).Reads mid ns rest := by
  simp only [opener, List.cons_append, List.nil_append, phrase_cons, reads_seq]
  constructor
  · rintro ⟨_, _, mid, hahead, ⟨_, ns, mid', htext, hps, rfl⟩, rfl⟩
    obtain ⟨hkw, rfl, hmid⟩ := reads_ahead.1 hahead
    obtain ⟨rfl, mid'', hcs, hmid'⟩ := reads_text.1 htext
    rw [hr.fails, not_not] at hkw
    have hafter : afterWord (skip cs) = mid'' := by
      have happend := word_append_afterWord (skip cs)
      rw [hkw] at happend
      exact List.append_cancel_left (happend.trans (hmid.trans hcs))
    exact ⟨mid', (lexes_word hr.valid.2).2 ⟨hkw, by rw [hafter]; exact hmid'⟩, hps⟩
  · rintro ⟨mid, hk, hps⟩
    have hkw : word (skip cs) = k := ((lexes_word hr.valid.2).1 hk).1
    obtain ⟨mid', hcs, -, hmid'⟩ := hk
    refine ⟨[], ns, cs, reads_ahead.2 ⟨?_, rfl, rfl⟩, ⟨[], ns, mid, ?_, hps, rfl⟩, rfl⟩
    · rw [hr.fails, not_not]
      exact hkw
    · exact reads_text.2 ⟨rfl, mid', hcs, hmid'⟩

theorem fails_opener {r : Rule} {k : List Char} (hr : r.IsWord k) {ps : List Pattern}
    {last : Pattern} (h : word (skip cs) ≠ k) : (phrase (opener r k ++ ps) last).Fails cs :=
  (hr.fails.2 h).ahead.seq_left

/-! ## Names and literals -/

theorem takes_identifier {w : List Char} (hw : IsName w) :
    Rule.identifier.Takes (.word w) ⟨.identifier, .nowhere, w, []⟩ := by
  intro rest hends
  obtain ⟨hword, hafter⟩ := word_append hw.2.1 hends
  rw [Token.text, Rule.parse_identifier, hword, hafter, if_pos hw]
  rfl

theorem reads_identifier : (rule .identifier).Reads cs ns rest ↔
    ∃ w, IsName w ∧ Lexes [.word w] cs rest ∧ ns = [⟨.identifier, .nowhere, w, []⟩] := by
  refine ⟨?_, fun ⟨w, hw, h, hns⟩ => hns ▸ (takes_identifier hw).reads h⟩
  rintro ⟨y, rest', h, rfl, hrest⟩
  rw [Pattern.parse, Rule.parse_identifier] at h
  split at h <;> cases h
  next hname => exact ⟨_, hname, (lexes_word hname.2.1).2 ⟨rfl, hrest⟩, rfl⟩

theorem isWordChar_boolean : ∀ w ∈ [['t', 'r', 'u', 'e'], ['f', 'a', 'l', 's', 'e']], ∀ c ∈ w,
    isWordChar c = true := by
  have hwords : ∀ w ∈ [['t', 'r', 'u', 'e'], ['f', 'a', 'l', 's', 'e']], w ∈ keywords := by decide
  exact fun w hw => isWordChar_of_mem_keywords w (hwords w hw)

theorem takes_booleanLiteral {w : List Char}
    (hw : w ∈ [['t', 'r', 'u', 'e'], ['f', 'a', 'l', 's', 'e']]) :
    Rule.booleanLiteral.Takes (.word w) ⟨.booleanLiteral, .nowhere, w, []⟩ := by
  intro rest hends
  obtain ⟨hword, hafter⟩ := word_append (isWordChar_boolean w hw) hends
  rw [Token.text, Rule.parse_booleanLiteral, hword, hafter, if_pos hw]
  rfl

theorem reads_booleanLiteral : (rule .booleanLiteral).Reads cs ns rest ↔
    ∃ w ∈ [['t', 'r', 'u', 'e'], ['f', 'a', 'l', 's', 'e']], Lexes [.word w] cs rest ∧
      ns = [⟨.booleanLiteral, .nowhere, w, []⟩] := by
  refine ⟨?_, fun ⟨w, hw, h, hns⟩ => hns ▸ (takes_booleanLiteral hw).reads h⟩
  rintro ⟨y, rest', h, rfl, hrest⟩
  rw [Pattern.parse, Rule.parse_booleanLiteral] at h
  split at h <;> cases h
  next hw => exact ⟨_, hw, (lexes_word (isWordChar_boolean _ hw)).2 ⟨rfl, hrest⟩, rfl⟩

theorem fails_booleanLiteral : (rule .booleanLiteral).Fails cs ↔
    word (skip cs) ∉ [['t', 'r', 'u', 'e'], ['f', 'a', 'l', 's', 'e']] := by
  rw [Fails, Pattern.parse, Rule.parse_booleanLiteral]
  split <;> simp_all

theorem fraction?_eq_some {fs : List Char} : fraction? cs = some (fs, rest) ↔
    cs = '.' :: (fs ++ rest) ∧ fs ≠ [] ∧ (∀ d ∈ fs, d.isDigit = true) ∧ digits rest = [] := by
  constructor
  · intro h
    unfold fraction? at h
    split at h
    · next cs' =>
      split at h <;> cases h
      next hne =>
      exact ⟨by rw [digits_append_afterDigits], hne,
        fun d hd => List.all_eq_true.1 List.all_takeWhile d hd, digits_afterDigits cs'⟩
    · cases h
  · rintro ⟨rfl, hne, hfs, hrest⟩
    obtain ⟨hdigits, hafter⟩ := digits_append hfs hrest
    rw [fraction?, hdigits, hafter, if_neg hne]

theorem takes_numericLiteral {t : Token} (hn : t.IsNumeral) (ht : t.Valid) :
    Rule.numericLiteral.Takes t ⟨.numericLiteral, .nowhere, t.text, []⟩ := by
  intro rest hends
  cases t with
  | integer ds =>
    obtain ⟨hdigits, hafter⟩ := digits_append ht.2 hends.1
    rw [Token.text, Rule.parse_numericLiteral, hdigits, hafter, if_neg ht.1, hends.2]
    rfl
  | decimal ds fs =>
    have hpoint : digits ('.' :: (fs ++ rest)) = [] := rfl
    obtain ⟨hdigits, hafter⟩ := digits_append ht.1.2 hpoint
    have hfraction : fraction? ('.' :: (fs ++ rest)) = some (fs, rest) :=
      fraction?_eq_some.2 ⟨rfl, ht.2.1, ht.2.2, hends⟩
    rw [Token.text, List.append_assoc, List.cons_append, Rule.parse_numericLiteral, hdigits, hafter,
      if_neg ht.1.1, hfraction]
    rfl
  | word | quoted | symbol => exact hn.elim

theorem reads_numericLiteral : (rule .numericLiteral).Reads cs ns rest ↔
    ∃ t : Token, t.IsNumeral ∧ t.Valid ∧ Lexes [t] cs rest ∧
      ns = [⟨.numericLiteral, .nowhere, t.text, []⟩] := by
  have hsplit := digits_append_afterDigits (skip cs)
  have hall : ∀ d ∈ digits (skip cs), d.isDigit = true := fun d hd =>
    List.all_eq_true.1 List.all_takeWhile d hd
  refine ⟨?_, fun ⟨t, hn, ht, h, hns⟩ => hns ▸ (takes_numericLiteral hn ht).reads h⟩
  rintro ⟨y, rest', h, rfl, hrest⟩
  rw [Pattern.parse, Rule.parse_numericLiteral] at h
  split at h
  · cases h
  next hne =>
  split at h
  · next fs rest'' hfs =>
    cases h
    obtain ⟨hafter, hfs, hall', hend⟩ := fraction?_eq_some.1 hfs
    refine ⟨.decimal (digits (skip cs)) fs, trivial, ⟨⟨hne, hall⟩, hfs, hall'⟩,
      ⟨rest', ?_, hend, hrest⟩, rfl⟩
    rw [hafter] at hsplit
    rw [Token.text, List.append_assoc, List.cons_append]
    exact hsplit.symm
  · next hfs =>
    cases h
    exact ⟨.integer (digits (skip cs)), trivial, ⟨hne, hall⟩,
      ⟨_, hsplit.symm, ⟨digits_afterDigits _, hfs⟩, hrest⟩, rfl⟩

theorem takes_stringLiteral {raw : List Char} (h : (Token.quoted raw).Valid) :
    Rule.stringLiteral.Takes (.quoted raw) ⟨.stringLiteral, .nowhere, ['"', '"'],
      [⟨.stringCharacters, .nowhere, raw, []⟩]⟩ := by
  intro rest _
  have htext : (Token.quoted raw).text ++ rest = '"' :: (raw ++ '"' :: rest) := by
    simp [Token.text]
  rw [htext, Rule.parse_stringLiteral, quotedPart_quote h]
  rfl

theorem reads_stringLiteral : (rule .stringLiteral).Reads cs ns rest ↔
    ∃ raw, (Token.quoted raw).Valid ∧ Lexes [.quoted raw] cs rest ∧
      ns = [⟨.stringLiteral, .nowhere, ['"', '"'],
        [⟨.stringCharacters, .nowhere, raw, []⟩]⟩] := by
  refine ⟨?_, fun ⟨raw, hvalid, h, hns⟩ => hns ▸ (takes_stringLiteral hvalid).reads h⟩
  rintro ⟨y, rest', h, rfl, hrest⟩
  rw [Pattern.parse] at h
  have hquote : ∃ cs', skip cs = '"' :: cs' := by
    by_contra hne
    have hhead : (skip cs).head? ≠ some '"' := fun hc => by
      cases hcs : skip cs with
      | nil => simp [hcs] at hc
      | cons c cs' =>
        rw [hcs] at hc
        cases hc
        exact hne ⟨cs', hcs⟩
    rw [Rule.parse_of_rejects 1 _ _ (by simp [Rule.rejects, Rule.body, Pattern.word,
      rejects, hhead]) rfl] at h
    cases h
  obtain ⟨cs', hcs⟩ := hquote
  rw [hcs, Rule.parse_stringLiteral] at h
  split at h
  · next rest'' hq =>
    cases h
    have happend := quotedPart_append cs'
    rw [hq] at happend
    refine ⟨(quotedPart cs').1, quotedPart_fst cs', ⟨rest', ?_, trivial, hrest⟩, rfl⟩
    rw [hcs, Token.text, ← happend]
    simp [happend]
  · cases h

/-! ## One token at a place -/

theorem Token.eq_of_text {t t' : Token} (hn : t.IsNumeral) (hn' : t'.IsNumeral) (ht : t.Valid)
    (ht' : t'.Valid) (h : t.text = t'.text) : t = t' := by
  -- the digits at the start of a numeral, and what follows them
  have hsplit : ∀ {t : Token}, t.IsNumeral → t.Valid → ∃ ds, digits t.text = ds ∧
      (t = integer ds ∧ afterDigits t.text = [] ∨
        ∃ fs, t = decimal ds fs ∧ afterDigits t.text = '.' :: fs) := by
    intro t hn ht
    cases t with
    | integer ds =>
      have hend : digits [] = [] := rfl
      obtain ⟨hdigits, hafter⟩ := digits_append ht.2 hend
      rw [List.append_nil] at hdigits hafter
      exact ⟨ds, hdigits, .inl ⟨rfl, hafter⟩⟩
    | decimal ds fs =>
      have hpoint : digits ('.' :: fs) = [] := rfl
      obtain ⟨hdigits, hafter⟩ := digits_append ht.1.2 hpoint
      exact ⟨ds, hdigits, .inr ⟨fs, rfl, hafter⟩⟩
    | word | quoted | symbol => exact hn.elim
  obtain ⟨ds, hds, h₁⟩ := hsplit hn ht
  obtain ⟨ds', hds', h₂⟩ := hsplit hn' ht'
  rw [← h, hds] at hds'
  rw [← h] at h₂
  subst hds'
  obtain ⟨rfl, hrest⟩ | ⟨fs, rfl, hrest⟩ := h₁ <;> obtain ⟨rfl, hrest'⟩ | ⟨fs', rfl, hrest'⟩ := h₂
  · rfl
  · rw [hrest] at hrest'
    cases hrest'
  · rw [hrest] at hrest'
    cases hrest'
  · rw [hrest] at hrest'
    cases hrest'
    rfl

theorem Symbol.eq_or_extends (s s' : Symbol) {mid mid' : List Char}
    (h : s.chars ++ mid = s'.chars ++ mid') : s = s' ∨
      (∃ c, s.extension? = some c ∧ mid.head? = some c) ∨
      ∃ c, s'.extension? = some c ∧ mid'.head? = some c := by
  cases s <;> cases s' <;> simp [chars, extension?] at h ⊢ <;> first | simp [h] | simp [← h]

/-- A text starts with one token. -/
theorem Lexes.unique {t t' : Token} (h : Lexes [t] cs rest) (h' : Lexes [t'] cs rest')
    (ht : t.Valid) (ht' : t'.Valid) : t = t' ∧ skip rest = skip rest' := by
  have hhead : t'.text.head? = t.text.head? := by rw [← h.head? ht, ← h'.head? ht']
  obtain ⟨c, hc⟩ : ∃ c, t.text.head? = some c :=
    Option.isSome_iff_exists.1 (by simpa using Token.text_ne_nil ht)
  rw [hc] at hhead
  have hcases' := Token.head_cases ht' hhead
  obtain ⟨w, rfl, hw⟩ | ⟨hn, hdigit⟩ | ⟨raw, rfl, rfl⟩ | ⟨s, rfl, hs⟩ := Token.head_cases ht hc
  · obtain rfl := (h'.word_eq_iff ht' ht).1 ((h.word_eq_iff ht ht).2 rfl)
    exact ⟨rfl, ((lexes_word ht.2).1 h).2.symm.trans ((lexes_word ht.2).1 h').2⟩
  · have hn' : t'.IsNumeral := by
      obtain ⟨w, -, hw⟩ | ⟨hn', -⟩ | ⟨raw, -, rfl⟩ | ⟨s, -, hs⟩ := hcases'
      · rw [isDigit_of_isWordStart hw] at hdigit
        cases hdigit
      · exact hn'
      · cases hdigit
      · rw [(Symbol.head_chars hs).2.1] at hdigit
        cases hdigit
    obtain ⟨hnodes, hrest⟩ := (reads_numericLiteral.2 ⟨t, hn, ht, h, rfl⟩).unique
      (reads_numericLiteral.2 ⟨t', hn', ht', h', rfl⟩)
    have htext : t.text = t'.text := by injection hnodes with hnode; injection hnode
    exact ⟨Token.eq_of_text hn hn' ht ht' htext, hrest⟩
  · obtain ⟨w, -, hw⟩ | ⟨-, hdigit⟩ | ⟨raw', rfl, -⟩ | ⟨s, -, hs⟩ := hcases'
    · cases hw
    · cases hdigit
    · obtain ⟨hnodes, hrest⟩ := (reads_stringLiteral.2 ⟨raw, ht, h, rfl⟩).unique
        (reads_stringLiteral.2 ⟨raw', ht', h', rfl⟩)
      simp only [List.cons.injEq, Node.mk.injEq, true_and, and_true] at hnodes
      exact ⟨by rw [hnodes], hrest⟩
    · exact absurd rfl (Symbol.head_chars hs).2.2
  · obtain ⟨hword, hdigit, hquote⟩ := Symbol.head_chars hs
    obtain ⟨w, -, hw⟩ | ⟨-, hd⟩ | ⟨raw', -, hq⟩ | ⟨s', rfl, -⟩ := hcases'
    · rw [hword] at hw
      cases hw
    · rw [hdigit] at hd
      cases hd
    · exact absurd hq hquote
    · obtain ⟨mid, hcs, hends, hmid⟩ := h
      obtain ⟨mid', hcs', hends', hmid'⟩ := h'
      have heq : s.chars ++ mid = s'.chars ++ mid' := hcs.symm.trans hcs'
      obtain rfl | ⟨d, hd, hmid⟩ | ⟨d, hd, hmid'⟩ := s.eq_or_extends s' heq
      · obtain rfl := List.append_cancel_left heq
        exact ⟨rfl, hmid.symm.trans hmid'⟩
      · exact absurd hmid (hends d hd)
      · exact absurd hmid' (hends' d hd)

/-- A text is made of one list of tokens. -/
theorem Lexes.unique_all {ts us : List Token} (h : Lexes ts cs []) (h' : Lexes us cs [])
    (hts : ∀ t ∈ ts, t.Valid) (hus : ∀ t ∈ us, t.Valid) : ts = us := by
  -- a token is not nothing
  have hnil : ∀ {cs : List Char} {t : Token} {ts : List Token}, t.Valid → Lexes (t :: ts) cs [] →
      ¬ Lexes [] cs [] := by
    rintro cs t ts ht ⟨mid, hcs, -⟩ hend
    have htext : t.text ++ mid = [] := hcs.symm.trans hend
    exact Token.text_ne_nil ht (List.append_eq_nil_iff.1 htext).1
  induction ts generalizing us cs with
  | nil =>
    cases us with
    | nil => rfl
    | cons u us => exact absurd h (hnil (List.forall_mem_cons.1 hus).1 h')
  | cons t ts ih =>
    obtain ⟨ht, hts⟩ := List.forall_mem_cons.1 hts
    cases us with
    | nil => exact absurd h' (hnil ht h)
    | cons u us =>
      obtain ⟨hu, hvalid⟩ := List.forall_mem_cons.1 hus
      obtain ⟨mid, hfirst, hmore⟩ := lexes_cons.1 h
      obtain ⟨mid', hfirst', hmore'⟩ := lexes_cons.1 h'
      obtain ⟨rfl, hmid⟩ := hfirst.unique hfirst' ht hu
      rw [ih hmore (hmore'.congr hmid.symm rfl) hts hvalid]

/-! ## Operators -/

end Scoped.Grammar

namespace Scoped

open Grammar

/-- An operator as a token. -/
def UnaryOp.token : UnaryOp → Token
  | .minus => .symbol .sub
  | .not => .symbol .not

namespace Connective

/-- How strongly an operator binds. An assignment has strength 0, an operator before its operand
7, a call 8, and what stands for itself 9. -/
def strength : Connective → Nat
  | logical .or => 1
  | logical .and => 2
  | binary .eq | binary .ne => 3
  | binary .lt | binary .gt | binary .le | binary .ge => 4
  | binary .add | binary .sub => 5
  | binary .mul | binary .div | binary .rem => 6

/-- An operator as a token. -/
def token : Connective → Token
  | logical .or => .word ['o', 'r']
  | logical .and => .word ['a', 'n', 'd']
  | binary .eq => .symbol .eq
  | binary .ne => .symbol .ne
  | binary .lt => .symbol .lt
  | binary .gt => .symbol .gt
  | binary .le => .symbol .le
  | binary .ge => .symbol .ge
  | binary .add => .symbol .add
  | binary .sub => .symbol .sub
  | binary .mul => .symbol .mul
  | binary .div => .symbol .div
  | binary .rem => .symbol .rem

theorem one_le_strength (c : Connective) : 1 ≤ c.strength := by
  cases c with
  | binary op => cases op <;> decide
  | logical op => cases op <;> decide

theorem strength_le_six (c : Connective) : c.strength ≤ 6 := by
  cases c with
  | binary op => cases op <;> decide
  | logical op => cases op <;> decide

end Connective

/-- The rule for the operators of one strength. -/
def Grammar.Rule.operator : (strength : Nat) → Rule
  | 1 => orOperator
  | 2 => andOperator
  | 3 => equalityOperator
  | 4 => relationalOperator
  | 5 => additiveOperator
  | _ => multiplicativeOperator

namespace Grammar

open Pattern

variable {cs mid rest : List Char} {ns : List Node}

theorem Rule.isWord_or : Rule.orOperator.IsWord ['o', 'r'] :=
  ⟨rfl, rfl, Token.valid_keyword (by decide)⟩

theorem Rule.isWord_and : Rule.andOperator.IsWord ['a', 'n', 'd'] :=
  ⟨rfl, rfl, Token.valid_keyword (by decide)⟩

theorem stripText_singleton {c : Char} (h : cs.head? ≠ some c) : stripText [c] cs = none := by
  cases cs with
  | nil => rfl
  | cons d ds =>
    have hcd : c ≠ d := fun heq => h (by rw [heq]; rfl)
    simp [stripText, hcd]

/-- An operator is matched by the rule for its strength. -/
theorem Connective.takes (c : Connective) : (Rule.operator c.strength).Takes c.token
    ⟨.operator c.strength, .nowhere, c.token.text, []⟩ := by
  cases c with
  | logical op =>
    cases op with
    | or => exact Rule.isWord_or.takes
    | and => exact Rule.isWord_and.takes
  | binary op =>
    intro rest hends
    rw [Rule.parse_eq]
    cases op with
    | lt | gt =>
      have hnone : stripText ['='] rest = none := stripText_singleton (hends '=' rfl)
      simp [Connective.strength, Rule.operator, Rule.body, Connective.token, Token.text,
        Symbol.chars, Pattern.parse, stripText, hnone, Rule.yield, Rule.kind, Yield.ofNode]
    | _ =>
      simp [Connective.strength, Rule.operator, Rule.body, Connective.token, Token.text,
        Symbol.chars, Pattern.parse, stripText, Rule.yield, Rule.kind, Yield.ofNode]

/-- A rule that matches one of some texts reads one of them. -/
theorem reads_texts {r : Rule} {ks : List (List Char)} (hkind : r.kind = .normal)
    (hbody : IsTexts r.body ks) (h : (rule r).Reads cs ns rest) :
    ∃ k mid, ks.find? (fun k => (stripText k (Layout.skip cs)).isSome) = some k ∧
      Layout.skip cs = k ++ mid ∧ Layout.skip mid = Layout.skip rest ∧
      ns = [⟨r, .nowhere, k, []⟩] := by
  obtain ⟨y, mid, hy, rfl, hmid⟩ := h
  rw [Pattern.parse, Rule.parse_eq, hbody] at hy
  obtain ⟨⟨z, mid'⟩, hz, heq⟩ := Option.map_eq_some_iff.1 hy
  cases heq
  obtain ⟨as, k, bs, rfl, hk, has⟩ := List.findSome?_eq_some_iff.1 hz
  obtain ⟨mid'', hstrip, heq⟩ := Option.map_eq_some_iff.1 hk
  cases heq
  refine ⟨k, mid', ?_, stripText_eq_some_iff.1 hstrip, hmid, by rw [Rule.yield, hkind]; rfl⟩
  refine List.find?_eq_some_iff_append.2 ⟨by simp [hstrip], as, bs, rfl, fun a ha => ?_⟩
  have hnone := has a ha
  rw [Option.map_eq_none_iff] at hnone
  simp [hnone]

theorem isTexts_equality : IsTexts (Rule.body .equalityOperator) [['=', '='], ['!', '=']] :=
  (isTexts_text _).alt (isTexts_text _)

theorem isTexts_relational :
    IsTexts (Rule.body .relationalOperator) [['<', '='], ['>', '='], ['<'], ['>']] :=
  (isTexts_text _).alt <| (isTexts_text _).alt <| (isTexts_text _).alt (isTexts_text _)

theorem isTexts_additive : IsTexts (Rule.body .additiveOperator) [['+'], ['-']] :=
  (isTexts_text _).alt (isTexts_text _)

theorem isTexts_multiplicative :
    IsTexts (Rule.body .multiplicativeOperator) [['*'], ['/'], ['%']] :=
  (isTexts_text _).alt <| (isTexts_text _).alt (isTexts_text _)

theorem lexes_symbol {s : Symbol} (hcs : Layout.skip cs = s.chars ++ mid)
    (hs : ∀ c, s.extension? = some c → mid.head? ≠ some c)
    (hmid : Layout.skip mid = Layout.skip rest) : Lexes [.symbol s] cs rest :=
  ⟨mid, hcs, hs, hmid⟩

/-- The rule for the operators of one strength reads one of them. -/
theorem reads_operator {k : Nat} (hk : 1 ≤ k) (hk' : k ≤ 6)
    (h : (rule (.operator k)).Reads cs ns rest) : ∃ c : Connective, c.strength = k ∧
      Lexes [c.token] cs rest ∧ ns = [⟨.operator k, .nowhere, c.token.text, []⟩] := by
  have hone : ∀ {s : Symbol} {mid}, s.extension? = none → ∀ c, s.extension? = some c →
      (mid : List Char).head? ≠ some c := by
    intro s mid hs c hc
    rw [hs] at hc
    cases hc
  interval_cases k
  · obtain ⟨hlex, rfl⟩ := Rule.isWord_or.reads.1 h
    exact ⟨.logical .or, rfl, hlex, rfl⟩
  · obtain ⟨hlex, rfl⟩ := Rule.isWord_and.reads.1 h
    exact ⟨.logical .and, rfl, hlex, rfl⟩
  · obtain ⟨t, mid, hfind, hcs, hmid, rfl⟩ := reads_texts rfl isTexts_equality h
    have hmem := List.mem_of_find?_eq_some hfind
    simp only [List.mem_cons, List.not_mem_nil, or_false] at hmem
    rcases hmem with rfl | rfl
    · exact ⟨.binary .eq, rfl, lexes_symbol hcs (hone rfl) hmid, rfl⟩
    · exact ⟨.binary .ne, rfl, lexes_symbol hcs (hone rfl) hmid, rfl⟩
  · obtain ⟨t, mid, hfind, hcs, hmid, rfl⟩ := reads_texts rfl isTexts_relational h
    have hmem := List.mem_of_find?_eq_some hfind
    -- the shorter operators are tried after the longer ones
    have hlonger : ∀ c, t = [c] → mid.head? ≠ some '=' := by
      rintro c rfl heq
      obtain ⟨mid', rfl⟩ : ∃ mid', mid = '=' :: mid' := by cases mid <;> simp_all
      rw [hcs] at hfind
      simp only [List.mem_cons, List.not_mem_nil, or_false] at hmem
      rcases hmem with h | h | h | h <;> cases h <;> simp [stripText] at hfind
    simp only [List.mem_cons, List.not_mem_nil, or_false] at hmem
    rcases hmem with rfl | rfl | rfl | rfl
    · exact ⟨.binary .le, rfl, lexes_symbol hcs (hone rfl) hmid, rfl⟩
    · exact ⟨.binary .ge, rfl, lexes_symbol hcs (hone rfl) hmid, rfl⟩
    · refine ⟨.binary .lt, rfl, lexes_symbol hcs ?_ hmid, rfl⟩
      rintro c ⟨⟩
      exact hlonger _ rfl
    · refine ⟨.binary .gt, rfl, lexes_symbol hcs ?_ hmid, rfl⟩
      rintro c ⟨⟩
      exact hlonger _ rfl
  · obtain ⟨t, mid, hfind, hcs, hmid, rfl⟩ := reads_texts rfl isTexts_additive h
    have hmem := List.mem_of_find?_eq_some hfind
    simp only [List.mem_cons, List.not_mem_nil, or_false] at hmem
    rcases hmem with rfl | rfl
    · exact ⟨.binary .add, rfl, lexes_symbol hcs (hone rfl) hmid, rfl⟩
    · exact ⟨.binary .sub, rfl, lexes_symbol hcs (hone rfl) hmid, rfl⟩
  · obtain ⟨t, mid, hfind, hcs, hmid, rfl⟩ := reads_texts rfl isTexts_multiplicative h
    have hmem := List.mem_of_find?_eq_some hfind
    simp only [List.mem_cons, List.not_mem_nil, or_false] at hmem
    rcases hmem with rfl | rfl | rfl
    · exact ⟨.binary .mul, rfl, lexes_symbol hcs (hone rfl) hmid, rfl⟩
    · refine ⟨.binary .div, rfl, lexes_symbol hcs ?_ hmid, rfl⟩
      rintro c ⟨⟩
      -- two slashes would have been layout
      have hskip := Layout.skip_skip cs
      rw [hcs] at hskip
      exact Layout.head_ne_of_skip hskip
    · exact ⟨.binary .rem, rfl, lexes_symbol hcs (hone rfl) hmid, rfl⟩

end Grammar

end Scoped
