import Scoped.Proofs.Completeness
import Scoped.Proofs.Soundness

/-!
# Writing programs and reading them back

`Program.spelling` writes a program down : its tokens with one blank between every two, strings
with their special characters escaped, and an expression in parentheses where it binds weaker than
its place asks for. Every well-formed program is read back from what is written, up to the spans,
and every program that is read is well-formed (`Program.read_spelling`). The spelling has no more
tokens than any script that the program is read from, so none of its parentheses can be left out.

There are many ways to write a double in decimal digits. `Numerals` is any one of them.
-/

namespace Scoped

open Grammar
open Grammar.Layout (skip)

/-! ## Strings -/

namespace Literal

/-- A character as it stands in a string. -/
def escapeChar : Char → List Char
  | '"' => ['\\', '"']
  | '\\' => ['\\', '\\']
  | '\n' => ['\\', 'n']
  | '\t' => ['\\', 't']
  | '\r' => ['\\', 'r']
  | '\x00' => ['\\', '0']
  | c => [c]

/-- A text as it stands between the quotes of a string. -/
def escape (cs : List Char) : List Char := cs.flatMap escapeChar

/-- A character stands for itself, or it is what a backslash makes of another one. -/
theorem escapeChar_cases (c : Char) : (escapeChar c = [c] ∧ c ≠ '"' ∧ c ≠ '\\') ∨
    ∃ d, escapeChar c = ['\\', d] ∧ unescapeChar d = c := by
  unfold escapeChar
  split
  · exact .inr ⟨'"', rfl, rfl⟩
  · exact .inr ⟨'\\', rfl, rfl⟩
  · exact .inr ⟨'n', rfl, rfl⟩
  · exact .inr ⟨'t', rfl, rfl⟩
  · exact .inr ⟨'r', rfl, rfl⟩
  · exact .inr ⟨'0', rfl, rfl⟩
  · next hquote hslash _ _ _ _ => exact .inl ⟨rfl, hquote, hslash⟩

theorem unescapeFrom_escape (read cs : List Char) :
    unescapeFrom read (escape cs) = read.reverse ++ cs := by
  induction cs generalizing read with
  | nil => simp [escape, unescapeFrom]
  | cons c cs ih =>
    rw [escape, List.flatMap_cons, ← escape]
    obtain ⟨hc, -, hslash⟩ | ⟨d, hc, hd⟩ := escapeChar_cases c
    · rw [hc, List.singleton_append, unescapeFrom, ih]
      · simp
      · simp [hslash]
      · simp [hslash]
    · rw [hc, List.cons_append, List.singleton_append, unescapeFrom, ih, hd]
      simp

theorem unescape_escape (cs : List Char) : unescape (escape cs) = cs :=
  unescapeFrom_escape [] cs

theorem quotedPart_escape (cs : List Char) : quotedPart (escape cs) = (escape cs, []) := by
  induction cs with
  | nil => rfl
  | cons c cs ih =>
    rw [escape, List.flatMap_cons, ← escape]
    obtain ⟨hc, hquote, hslash⟩ | ⟨d, hc, -⟩ := escapeChar_cases c
    · rw [hc, List.singleton_append, quotedPart, ih] <;> simp [hquote, hslash]
    · rw [hc, List.cons_append, List.singleton_append, quotedPart, ih]

end Literal

/-! ## Numbers -/

/-- A way to write doubles : digits before and after a point. -/
structure Numerals where
  decimal : Float → List Char × List Char
  valid : ∀ x, IsDecimal x → (Token.decimal (decimal x).1 (decimal x).2).Valid
  denotes : ∀ x, IsDecimal x →
    x = Float.ofScientific (Literal.digitsValue ((decimal x).1 ++ (decimal x).2)) true
      (decimal x).2.length

open Classical in
/-- Some digits for every double that has any. -/
noncomputable def Numerals.chosen : Numerals where
  decimal x := if h : IsDecimal x then (h.choose, h.choose_spec.choose) else ([], [])
  valid x h := by
    rw [dif_pos h]
    exact h.choose_spec.choose_spec.1
  denotes x h := by
    rw [dif_pos h]
    exact h.choose_spec.choose_spec.2

theorem Literal.digitsValue_toDigits (n : Nat) : Literal.digitsValue (Nat.toDigits 10 n) = n :=
  Nat.ofDigitChars_ten_toDigits

theorem valid_toDigits (n : Nat) : (Token.integer (Nat.toDigits 10 n)).Valid :=
  ⟨Nat.toDigits_ne_nil, fun _ hd => Nat.isDigit_of_mem_toDigits (by decide) (by decide) hd⟩

variable (N : Numerals)

/-- A literal as a token. -/
def Literal.token : Literal → Token
  | .nil => .kwNil
  | .bool true => .kwTrue
  | .bool false => .kwFalse
  | .number (.int n) => .integer (Nat.toDigits 10 n.toInt.toNat)
  | .number (.float x) => .decimal (N.decimal x).1 (N.decimal x).2
  | .string s => .quoted (Literal.escape s.toList)

theorem Literal.spelled_token {l : Literal} (h : l.WellFormed) : l.Spelled (l.token N) := by
  match l, h with
  | .nil, _ => exact .nil
  | .bool true, _ => exact .true
  | .bool false, _ => exact .false
  | .number (.int n), h =>
    have hn : ((n.toInt.toNat : Nat) : Int) = n.toInt := Int.toNat_of_nonneg h
    refine .numeral trivial (valid_toDigits _) ?_
    rw [Literal.token, Token.text, Literal.ofNumeral?_integer (valid_toDigits _),
      Literal.digitsValue_toDigits, Number.ofInt?_eq_some.2 ⟨n, rfl, hn.symm⟩]
    rfl
  | .number (.float x), h =>
    refine .numeral trivial (N.valid x h) ?_
    rw [Literal.token, Token.text, Literal.ofNumeral?_decimal (N.valid x h), ← N.denotes x h]
  | .string s, _ =>
    have hs : s = String.ofList (Literal.unescape (Literal.escape s.toList)) := by
      rw [Literal.unescape_escape, String.ofList_toList]
    conv => lhs; rw [hs]
    exact .string (Literal.quotedPart_escape s.toList)

/-! ## Tokens of programs -/

/-- Parentheses around tokens, if they are needed. -/
def Grammar.Token.grouped (needed : Prop) [Decidable needed] (ts : List Token) : List Token :=
  if needed then .symbol .openParen :: (ts ++ [.symbol .closeParen]) else ts

mutual

/-- The tokens of an expression where an operand of strength `k` is asked for. -/
def Expr.tokens : Expr → (k : Nat) → List Token
  | .literal _ l, _ => [l.token N]
  | .ident x, _ => [x.token]
  | .assign _ x e, k => Token.grouped (0 < k) (x.token :: .symbol .assign :: e.tokens 0)
  | .unary _ op e, k => Token.grouped (7 < k) (op.token :: e.tokens 7)
  | .binary _ op l r, k =>
    let c := Connective.binary op
    Token.grouped (c.strength < k) (l.tokens c.strength ++ c.token :: r.tokens (c.strength + 1))
  | .logical _ op l r, k =>
    let c := Connective.logical op
    Token.grouped (c.strength < k) (l.tokens c.strength ++ c.token :: r.tokens (c.strength + 1))
  | .call _ f args, k =>
    Token.grouped (8 < k)
      (f.tokens 8 ++ .symbol .openParen :: (Expr.listTokens args ++ [.symbol .closeParen]))
  | .function d, _ => .kwFn :: d.tokens

/-- Expressions, each after a comma. -/
def Expr.moreTokens : List Expr → List Token
  | [] => []
  | e :: es => .symbol .comma :: (e.tokens 0 ++ Expr.moreTokens es)

/-- Expressions with commas between them. -/
def Expr.listTokens : List Expr → List Token
  | [] => []
  | e :: es => e.tokens 0 ++ Expr.moreTokens es

/-- The tokens of a statement. -/
def Stmt.tokens : Stmt → List Token
  | .expr _ e => e.tokens 0 ++ [.symbol .semicolon]
  | .print _ e => .kwPrint :: (e.tokens 0 ++ [.symbol .semicolon])
  | .ret _ none => [.kwReturn, .symbol .semicolon]
  | .ret _ (some e) => .kwReturn :: (e.tokens 0 ++ [.symbol .semicolon])
  | .block _ body => .symbol .openBrace :: (Stmt.tokensAll body ++ [.symbol .closeBrace])
  | .bind _ x none => [.kwLet, x.token, .symbol .semicolon]
  | .bind _ x (some e) =>
    .kwLet :: x.token :: .symbol .assign :: (e.tokens 0 ++ [.symbol .semicolon])
  | .function d => .kwFn :: ((d.id.map Ident.token).toList ++ d.tokens)
  | .cond _ e a none =>
    .kwIf :: .symbol .openParen :: (e.tokens 0 ++ .symbol .closeParen :: a.tokens)
  | .cond _ e a (some b) =>
    .kwIf :: .symbol .openParen ::
      (e.tokens 0 ++ .symbol .closeParen :: (a.tokens ++ .kwElse :: b.tokens))

/-- The tokens of statements. -/
def Stmt.tokensAll : List Stmt → List Token
  | [] => []
  | s :: ss => s.tokens ++ Stmt.tokensAll ss

/-- The tokens of the parameters and the body of a function. -/
def FunctionDef.tokens : FunctionDef → List Token
  | .mk _ _ params _ body =>
    .symbol .openParen :: (Ident.listTokens params ++ .symbol .closeParen ::
      .symbol .openBrace :: (Stmt.tokensAll body ++ [.symbol .closeBrace]))

end

/-- The tokens of a program. -/
def Program.tokens (p : Program) : List Token := Stmt.tokensAll N p.body

/-! ## The tokens denote the program -/

variable {N}

/-- An expression that binds too weakly is put into parentheses. -/
theorem Expr.Spelled.grouped {e : Expr} {s : Nat} {ts : List Token} (h : e.Spelled s ts)
    (k : Nat) : e.Spelled k (Token.grouped (s < k) ts) := by
  rw [Token.grouped]
  split
  · exact .group (h.weaken (Nat.zero_le s))
  · exact h.weaken (by omega)

mutual

theorem Expr.spelled_tokens : ∀ {e : Expr}, e.WellFormed → ∀ k, e.Spelled k (e.tokens N k)
  | .literal _ l, h, _ => .literal (l.spelled_token N h)
  | .ident _, h, _ => .ident h
  | .assign _ _ _, h, k => (Expr.Spelled.assign h.1 (Expr.spelled_tokens h.2 0)).grouped k
  | .unary _ _ e, h, k =>
    (Expr.Spelled.unary (Nat.le_refl 7) (Expr.spelled_tokens (e := e) h 7)).grouped k
  | .binary _ op _ _, h, k =>
    (Expr.Spelled.joined (c := .binary op) (Nat.le_refl _) (Expr.spelled_tokens h.1 _)
      (Expr.spelled_tokens h.2 _)).grouped k
  | .logical _ op _ _, h, k =>
    (Expr.Spelled.joined (c := .logical op) (Nat.le_refl _) (Expr.spelled_tokens h.1 _)
      (Expr.spelled_tokens h.2 _)).grouped k
  | .call _ _ _, h, k =>
    (Expr.Spelled.call (Nat.le_refl 8) (Expr.spelled_tokens h.1 8)
      (Expr.spelled_listTokens h.2)).grouped k
  | .function _, h, _ => .function h.1 (FunctionDef.spelled_tokens h.2)

theorem Expr.spelled_moreTokens : ∀ {es : List Expr}, Expr.WellFormedAll es →
    Expr.SpelledMore es (Expr.moreTokens N es)
  | [], _ => .nil
  | _ :: _, h => .cons (Expr.spelled_tokens h.1 0) (Expr.spelled_moreTokens h.2)

theorem Expr.spelled_listTokens : ∀ {es : List Expr}, Expr.WellFormedAll es →
    Expr.SpelledAll es (Expr.listTokens N es)
  | [], _ => .nil
  | _ :: _, h => .cons (Expr.spelled_tokens h.1 0) (Expr.spelled_moreTokens h.2)

theorem Stmt.spelled_tokens : ∀ {s : Stmt}, s.WellFormed → s.Spelled (s.tokens N)
  | .expr _ e, h => .expr (Expr.spelled_tokens (e := e) h 0)
  | .print _ e, h => .print (Expr.spelled_tokens (e := e) h 0)
  | .ret _ none, _ => .ret
  | .ret _ (some e), h => .retValue (Expr.spelled_tokens (e := e) h 0)
  | .block _ _, h => .block (Stmt.spelled_tokensAll h)
  | .bind _ _ none, h => .bind h
  | .bind _ _ (some _), h => .bindValue h.1 (Expr.spelled_tokens h.2 0)
  | .function d, ⟨⟨x, hid, hx⟩, h⟩ => by
    have hd : d.Spelled (d.tokens N) := FunctionDef.spelled_tokens h
    rw [Stmt.tokens, hid]
    exact .function hid hx hd
  | .cond _ _ _ none, h => .cond (Expr.spelled_tokens h.1 0) (Stmt.spelled_tokens h.2)
  | .cond _ _ _ (some _), h =>
    .condElse (Expr.spelled_tokens h.1 0) (Stmt.spelled_tokens h.2.1) h.2.2.2
      (Stmt.spelled_tokens h.2.2.1)

theorem Stmt.spelled_tokensAll : ∀ {ss : List Stmt}, Stmt.WellFormedAll ss →
    Stmt.SpelledAll ss (Stmt.tokensAll N ss)
  | [], _ => .nil
  | _ :: _, h => .cons (Stmt.spelled_tokens h.1) (Stmt.spelled_tokensAll h.2)

theorem FunctionDef.spelled_tokens : ∀ {d : FunctionDef}, d.WellFormed → d.Spelled (d.tokens N)
  | .mk _ _ _ _ _, h => .mk h.1 (Stmt.spelled_tokensAll h.2)

end

/-! ## The fewest tokens -/

theorem Grammar.Token.length_grouped_le {needed : Prop} [Decidable needed] (ts : List Token) :
    (Token.grouped needed ts).length ≤ ts.length + 2 := by
  rw [Token.grouped]
  split
  · simp only [List.length_cons, List.length_append, List.length_nil]
    omega
  · omega

theorem Grammar.Token.length_le_grouped {needed : Prop} [Decidable needed] (ts : List Token) :
    ts.length ≤ (Token.grouped needed ts).length := by
  rw [Token.grouped]
  split
  · simp only [List.length_cons, List.length_append]
    omega
  · omega

theorem Grammar.Token.grouped_of_not {needed : Prop} [Decidable needed] (h : ¬needed)
    (ts : List Token) : Token.grouped needed ts = ts :=
  if_neg h

/-- At another place an expression needs at most parentheses. -/
theorem Expr.length_tokens_le (e : Expr) (j k : Nat) :
    (e.tokens N k).length ≤ (e.tokens N j).length + 2 := by
  have hgrouped : ∀ (s : Nat) (ts : List Token),
      (Token.grouped (s < k) ts).length ≤ (Token.grouped (s < j) ts).length + 2 := fun s ts =>
    (Token.length_grouped_le ts).trans (Nat.add_le_add_right (Token.length_le_grouped ts) 2)
  cases e with
  | literal | ident | function =>
    rw [Expr.tokens, Expr.tokens]
    omega
  | assign | unary | binary | logical | call => exact hgrouped _ _

theorem Connective.tokens_join (c : Connective) (span : Span) (l r : Expr) (k : Nat) :
    (c.join span l r).tokens N k = Token.grouped (c.strength < k)
      (l.tokens N c.strength ++ c.token :: r.tokens N (c.strength + 1)) := by
  cases c <;> rfl

mutual

/-- No tokens that denote an expression are fewer than those it is written with. -/
theorem Expr.Spelled.length_le : ∀ {k : Nat} {e : Expr} {ts : List Token}, e.Spelled k ts →
    (e.tokens N k).length ≤ ts.length
  | _, _, _, .literal _ | _, _, _, .ident _ => by simp [Expr.tokens]
  | _, _, _, .function _ h => Nat.succ_le_succ h.length_le
  | k, e, _, .group h => by
    have hle := h.length_le
    have hgroup := e.length_tokens_le (N := N) 0 k
    simp only [List.length_cons, List.length_append, List.length_nil]
    omega
  | k, _, _, .call hk hf hargs => by
    have hf := hf.length_le
    have hargs := hargs.length_le
    rw [Expr.tokens, Token.grouped_of_not (by omega)]
    simp only [List.length_cons, List.length_append, List.length_nil]
    omega
  | k, _, _, .unary hk h => by
    rw [Expr.tokens, Token.grouped_of_not (by omega)]
    exact Nat.succ_le_succ h.length_le
  | k, _, _, .joined (c := c) hk hl hr => by
    have hl := hl.length_le
    have hr := hr.length_le
    rw [c.tokens_join, Token.grouped_of_not (by omega)]
    simp only [List.length_cons, List.length_append]
    omega
  | _, _, _, .assign _ h => Nat.succ_le_succ (Nat.succ_le_succ h.length_le)

theorem Expr.SpelledMore.length_le : ∀ {es : List Expr} {ts : List Token},
    Expr.SpelledMore es ts → (Expr.moreTokens N es).length ≤ ts.length
  | _, _, .nil => Nat.le_refl 0
  | _, _, .cons h hs => by
    have h := h.length_le
    have hs := hs.length_le
    simp only [Expr.moreTokens, List.length_cons, List.length_append]
    omega

theorem Expr.SpelledAll.length_le : ∀ {es : List Expr} {ts : List Token},
    Expr.SpelledAll es ts → (Expr.listTokens N es).length ≤ ts.length
  | _, _, .nil => Nat.le_refl 0
  | _, _, .cons h hs => by
    have h := h.length_le
    have hs := hs.length_le
    simp only [Expr.listTokens, List.length_append]
    omega

theorem Stmt.Spelled.length_le : ∀ {s : Stmt} {ts : List Token}, s.Spelled ts →
    (s.tokens N).length ≤ ts.length
  | _, _, .expr h | _, _, .print h | _, _, .retValue h | _, _, .bindValue _ h => by
    have h := h.length_le
    simp only [Stmt.tokens, List.length_cons, List.length_append]
    omega
  | _, _, .ret | _, _, .bind _ => by simp [Stmt.tokens]
  | _, _, .block h => by
    have h := h.length_le
    simp only [Stmt.tokens, List.length_cons, List.length_append]
    omega
  | _, _, .function hid _ h => by
    have h := h.length_le
    rw [Stmt.tokens, hid]
    exact Nat.succ_le_succ (Nat.succ_le_succ h)
  | _, _, .cond he ha => by
    have he := he.length_le
    have ha := ha.length_le
    simp only [Stmt.tokens, List.length_cons, List.length_append]
    omega
  | _, _, .condElse he ha _ hb => by
    have he := he.length_le
    have ha := ha.length_le
    have hb := hb.length_le
    simp only [Stmt.tokens, List.length_cons, List.length_append]
    omega

theorem Stmt.SpelledAll.length_le : ∀ {ss : List Stmt} {ts : List Token},
    Stmt.SpelledAll ss ts → (Stmt.tokensAll N ss).length ≤ ts.length
  | _, _, .nil => Nat.le_refl 0
  | _, _, .cons h hs => by
    have h := h.length_le
    have hs := hs.length_le
    simp only [Stmt.tokensAll, List.length_append]
    omega

theorem FunctionDef.Spelled.length_le : ∀ {d : FunctionDef} {ts : List Token}, d.Spelled ts →
    (d.tokens N).length ≤ ts.length
  | _, _, .mk _ h => by
    have h := h.length_le
    simp only [FunctionDef.tokens, List.length_cons, List.length_append]
    omega

end

/-! ## Spans -/

mutual

theorem Expr.wellFormed_erase : ∀ e : Expr, e.erase.WellFormed ↔ e.WellFormed
  | .literal _ _ | .ident _ => Iff.rfl
  | .assign _ _ e => and_congr Iff.rfl e.wellFormed_erase
  | .unary _ _ e => e.wellFormed_erase
  | .binary _ _ l r | .logical _ _ l r => and_congr l.wellFormed_erase r.wellFormed_erase
  | .call _ f args => and_congr f.wellFormed_erase (Expr.wellFormed_eraseAll args)
  | .function d => by
    rw [Expr.erase, Expr.WellFormed, Expr.WellFormed, d.id_erase, Option.map_eq_none_iff,
      d.wellFormed_erase]

theorem Expr.wellFormed_eraseAll :
    ∀ es : List Expr, Expr.WellFormedAll (Expr.eraseAll es) ↔ Expr.WellFormedAll es
  | [] => Iff.rfl
  | e :: es => and_congr e.wellFormed_erase (Expr.wellFormed_eraseAll es)

theorem Stmt.wellFormed_erase : ∀ s : Stmt, s.erase.WellFormed ↔ s.WellFormed
  | .expr _ e | .print _ e | .ret _ (some e) => e.wellFormed_erase
  | .ret _ none | .bind _ _ none => Iff.rfl
  | .block _ body => Stmt.wellFormed_eraseAll body
  | .bind _ _ (some e) => and_congr Iff.rfl e.wellFormed_erase
  | .function d => by
    have hid : (∃ x, d.erase.id = some x ∧ x.WellFormed) ↔ ∃ x, d.id = some x ∧ x.WellFormed := by
      rw [d.id_erase]
      cases d.id with
      | none => simp
      | some x => simp [Ident.erase, Ident.WellFormed]
    rw [Stmt.erase, Stmt.WellFormed, Stmt.WellFormed, hid, d.wellFormed_erase]
  | .cond _ e a none => and_congr e.wellFormed_erase a.wellFormed_erase
  | .cond _ e a (some b) => by
    rw [Stmt.erase, Stmt.WellFormed, Stmt.WellFormed, e.wellFormed_erase, a.wellFormed_erase,
      b.wellFormed_erase, a.isOpen_erase]

theorem Stmt.wellFormed_eraseAll :
    ∀ ss : List Stmt, Stmt.WellFormedAll (Stmt.eraseAll ss) ↔ Stmt.WellFormedAll ss
  | [] => Iff.rfl
  | s :: ss => and_congr s.wellFormed_erase (Stmt.wellFormed_eraseAll ss)

theorem FunctionDef.wellFormed_erase : ∀ d : FunctionDef, d.erase.WellFormed ↔ d.WellFormed
  | .mk _ _ params _ body => by
    refine and_congr ?_ (Stmt.wellFormed_eraseAll body)
    rw [List.forall_mem_map]
    exact Iff.rfl

end

theorem Ident.moreTokens_erase (xs : List Ident) :
    Ident.moreTokens (xs.map Ident.erase) = Ident.moreTokens xs := by
  induction xs with
  | nil => rfl
  | cons x xs ih =>
    rw [List.map_cons, Ident.moreTokens, Ident.moreTokens, ih]
    rfl

theorem Ident.listTokens_erase (xs : List Ident) :
    Ident.listTokens (xs.map Ident.erase) = Ident.listTokens xs := by
  cases xs with
  | nil => rfl
  | cons x xs =>
    rw [List.map_cons, Ident.listTokens, Ident.listTokens, Ident.moreTokens_erase]
    rfl

mutual

/-- A program is written without its spans. -/
theorem Expr.tokens_erase : ∀ (e : Expr) (k : Nat), e.erase.tokens N k = e.tokens N k
  | .literal _ _, _ | .ident _, _ => rfl
  | .assign _ x e, k => by
    rw [Expr.erase, Expr.tokens, Expr.tokens, e.tokens_erase]
    rfl
  | .unary _ _ e, k => by rw [Expr.erase, Expr.tokens, Expr.tokens, e.tokens_erase]
  | .binary _ _ l r, k | .logical _ _ l r, k => by
    simp only [Expr.erase, Expr.tokens, l.tokens_erase, r.tokens_erase]
  | .call _ f args, k => by
    rw [Expr.erase, Expr.tokens, Expr.tokens, f.tokens_erase, Expr.listTokens_eraseAll args]
  | .function d, k => by rw [Expr.erase, Expr.tokens, Expr.tokens, d.tokens_erase]

theorem Expr.moreTokens_eraseAll :
    ∀ es : List Expr, Expr.moreTokens N (Expr.eraseAll es) = Expr.moreTokens N es
  | [] => rfl
  | e :: es => by
    rw [Expr.eraseAll, Expr.moreTokens, Expr.moreTokens, e.tokens_erase,
      Expr.moreTokens_eraseAll es]

theorem Expr.listTokens_eraseAll :
    ∀ es : List Expr, Expr.listTokens N (Expr.eraseAll es) = Expr.listTokens N es
  | [] => rfl
  | e :: es => by
    rw [Expr.eraseAll, Expr.listTokens, Expr.listTokens, e.tokens_erase,
      Expr.moreTokens_eraseAll es]

theorem Stmt.tokens_erase : ∀ s : Stmt, s.erase.tokens N = s.tokens N
  | .expr _ e | .print _ e | .ret _ (some e) => by
    rw [Stmt.erase, Stmt.tokens, Stmt.tokens, e.tokens_erase]
  | .ret _ none | .bind _ _ none => rfl
  | .block _ body => by rw [Stmt.erase, Stmt.tokens, Stmt.tokens, Stmt.tokens_eraseAll body]
  | .bind _ _ (some e) => by
    rw [Stmt.erase, Stmt.tokens, Stmt.tokens, e.tokens_erase]
    rfl
  | .function d => by
    rw [Stmt.erase, Stmt.tokens, Stmt.tokens, d.tokens_erase, d.id_erase, Option.map_map]
    rfl
  | .cond _ e a none => by
    rw [Stmt.erase, Stmt.tokens, Stmt.tokens, e.tokens_erase, a.tokens_erase]
  | .cond _ e a (some b) => by
    rw [Stmt.erase, Stmt.tokens, Stmt.tokens, e.tokens_erase, a.tokens_erase, b.tokens_erase]

theorem Stmt.tokens_eraseAll :
    ∀ ss : List Stmt, Stmt.tokensAll N (Stmt.eraseAll ss) = Stmt.tokensAll N ss
  | [] => rfl
  | s :: ss => by
    rw [Stmt.eraseAll, Stmt.tokensAll, Stmt.tokensAll, s.tokens_erase, Stmt.tokens_eraseAll ss]

theorem FunctionDef.tokens_erase : ∀ d : FunctionDef, d.erase.tokens N = d.tokens N
  | .mk _ _ params _ body => by
    rw [FunctionDef.erase, FunctionDef.tokens, FunctionDef.tokens, Ident.listTokens_erase,
      Stmt.tokens_eraseAll body]

end

/-! ## Texts -/

namespace Grammar.Token

/-- Tokens with one blank between every two. -/
def join : List Token → List Char
  | [] => []
  | [t] => t.text
  | t :: u :: ts => t.text ++ ' ' :: join (u :: ts)

theorem lexes_join {ts : List Token} (h : ValidAll ts) : Lexes ts (join ts) [] := by
  induction ts with
  | nil => rfl
  | cons t ts ih =>
    obtain ⟨ht, hts⟩ := List.forall_mem_cons.1 h
    cases ts with
    | nil =>
      have hskip : skip (t.text ++ []) = t.text ++ [] := skip_text ht t.ends_nil
      rw [List.append_nil] at hskip
      exact ⟨[], by rw [join, hskip, List.append_nil], ends_nil t, rfl⟩
    | cons u ts =>
      refine ⟨' ' :: join (u :: ts), skip_text ht (ends_blank t rfl _), ends_blank t rfl _, ?_⟩
      exact (ih hts).congr (Layout.skip_blank rfl _).symm rfl

end Grammar.Token

/-- A program written down. -/
def Program.spelling (N : Numerals) (p : Program) : String :=
  String.ofList (Token.join (p.tokens N))

/-- A well-formed program is read back from its spelling, up to the spans. A program that is read
is well-formed, and the script it is read from has at least as many tokens as its spelling. -/
theorem Program.read_spelling (N : Numerals) :
    (∀ t : Program, t.WellFormed →
      ∃ p, Program.read (t.spelling N) = .ok p ∧ p.erase = t.erase) ∧
    ∀ (s : String) (p : Program), Program.read s = .ok p → p.WellFormed ∧
      ∃ ts, Token.ValidAll ts ∧ Lexes ts s.toList [] ∧ (p.tokens N).length ≤ ts.length := by
  constructor
  · intro t ht
    have hspelled : Stmt.SpelledAll t.body (t.tokens N) := Stmt.spelled_tokensAll ht
    refine Program.read_of_lexes hspelled ?_
    rw [Program.spelling, String.toList_ofList]
    exact Token.lexes_join hspelled.valid
  · intro s p h
    obtain ⟨ts, hspelled, hlex⟩ := Program.lexes_of_read h
    refine ⟨(Stmt.wellFormed_eraseAll p.body).1 hspelled.wellFormed, ts, hspelled.valid, hlex, ?_⟩
    rw [Program.tokens, ← Stmt.tokens_eraseAll]
    exact hspelled.length_le

/-- A conditional without alternative in a block, which keeps the alternative behind it away. -/
def Program.nestedConditional : Program where
  span := .nowhere
  body :=
    let name (x : String) : Ident := ⟨x, .nowhere⟩
    let int (n : Int64) : Expr := .literal .nowhere (.number (.int n))
    let call : Expr := .call .nowhere (.ident (name "f")) [.literal .nowhere (.string "a\"b")]
    let product : Expr := .binary .nowhere .mul (.binary .nowhere .add (int 1) (int 20)) (int 3)
    [.cond .nowhere (.ident (name "a"))
      (.block .nowhere [.cond .nowhere (.ident (name "b")) (.expr .nowhere call) none])
      (some (.expr .nowhere (.assign .nowhere (name "x") product)))]

theorem Program.read_spelling_nestedConditional :
    Program.nestedConditional.WellFormed ∧
    Program.nestedConditional.spelling .chosen =
      "if ( a ) \x7b if ( b ) f ( \"a\\\"b\" ) ; \x7d else x = ( 1 + 20 ) * 3 ;" ∧
    ∃ p, Program.read (Program.nestedConditional.spelling .chosen) = .ok p ∧
      p.erase = Program.nestedConditional.erase ∧ p.WellFormed ∧
      ∃ ts, Token.ValidAll ts ∧
        Lexes ts (Program.nestedConditional.spelling .chosen).toList [] ∧
        (p.tokens .chosen).length ≤ ts.length := by
  have hname : ∀ x ∈ ["a", "b", "f", "x"], IsName x.toList := by decide
  have hwell : Program.nestedConditional.WellFormed := by
    simp only [List.forall_mem_cons] at hname
    obtain ⟨ha, hb, hf, hx, -⟩ := hname
    have h1 : 0 ≤ Int64.toInt 1 := by decide
    have h20 : 0 ≤ Int64.toInt 20 := by decide
    have h3 : 0 ≤ Int64.toInt 3 := by decide
    exact ⟨⟨ha, ⟨⟨hb, hf, trivial, trivial⟩, trivial⟩, ⟨hx, ⟨h1, h20⟩, h3⟩, rfl⟩, trivial⟩
  obtain ⟨hread, hwritten⟩ := Program.read_spelling .chosen
  obtain ⟨p, hp, herase⟩ := hread _ hwell
  exact ⟨hwell, by decide, p, hp, herase, hwritten _ p hp⟩

end Scoped
