import Scoped.Proofs.Matching

/-!
# The lexical rules

What the rules below the level of tokens match, for every input : layout, words, numerals and
strings. A word is the longest stretch of letters, digits and underscores at the start of the
input (`word`), and the rules for keywords and names look at nothing else : `Rule.parse_keyword`,
`Rule.parse_identifier`.
-/

namespace Scoped.Grammar

open Pattern

variable {cs ds mid rest : List Char} {y : Yield}

/-! ## Layout -/

namespace Layout

/-- What follows layout, or a comment and layout after it. -/
def after : (inComment : Bool) → List Char → List Char
  | _, [] => []
  | true, c :: cs => after (c != '\n') cs
  | false, '/' :: '/' :: cs => after true cs
  | false, c :: cs => if isBlank c then after false cs else c :: cs

/-- What follows layout. -/
def skip (cs : List Char) : List Char := after false cs

@[simp]
theorem skip_nil : skip [] = [] := rfl

theorem after_nil (b : Bool) : after b [] = [] := by cases b <;> rfl

/-- A character that starts no comment. -/
theorem skip_char {c : Char} (hc : c = '/' → cs.head? ≠ some '/') :
    skip (c :: cs) = if isBlank c then skip cs else c :: cs := by
  unfold skip
  rw [after]
  rintro cs' rfl rfl
  exact hc rfl rfl

theorem ne_slash_of_isBlank {c : Char} (h : isBlank c = true) : c ≠ '/' := by
  rintro rfl
  exact absurd h (by decide)

theorem skip_blank {c : Char} (h : isBlank c = true) (cs : List Char) :
    skip (c :: cs) = skip cs := by
  rw [skip_char fun hc => absurd hc (ne_slash_of_isBlank h), if_pos h]

/-- A character that starts no layout. -/
theorem skip_cons {c : Char} (h : isBlank c = false) (hc : c = '/' → cs.head? ≠ some '/') :
    skip (c :: cs) = c :: cs := by
  rw [skip_char hc, if_neg (Bool.eq_false_iff.1 h)]

theorem head_ne_of_forall {c : Char} (h : ∀ cs', c = '/' → cs = '/' :: cs' → False)
    (hc : c = '/') : cs.head? ≠ some '/' := by
  intro hhead
  obtain ⟨cs', rfl⟩ := List.head?_eq_some_iff.1 hhead
  exact h cs' hc rfl

/-- Layout is passed over piece by piece : a character of a comment, the start of a comment, or a
blank. In front of anything else there is none. -/
theorem induction_on_pieces {motive : Bool → List Char → Prop} (nil : ∀ b, motive b [])
    (comment : ∀ c cs, motive (c != '\n') cs → motive true (c :: cs))
    (start : ∀ cs, motive true cs → motive false ('/' :: '/' :: cs))
    (blank : ∀ c cs, isBlank c = true → motive false cs → motive false (c :: cs))
    (other : ∀ c cs, isBlank c = false → (c = '/' → cs.head? ≠ some '/') →
      motive false (c :: cs))
    (b : Bool) (cs : List Char) : motive b cs := by
  fun_induction after b cs with
  | case1 b => exact nil b
  | case2 c cs ih => exact comment c cs ih
  | case3 cs ih => exact start cs ih
  | case4 c cs hne hblank ih => exact blank c cs hblank ih
  | case5 c cs hne hblank =>
    exact other c cs (Bool.eq_false_iff.2 hblank) (head_ne_of_forall hne)

theorem scan_after (read : List Char) (b : Bool) (cs : List Char) :
    (scan read b cs).2 = after b cs := by
  fun_induction scan read b cs with
  | case1 read b => exact (after_nil b).symm
  | case2 read c cs ih => exact ih
  | case3 read cs ih => exact ih
  | case4 read c cs hne hblank ih => exact ih.trans (skip_blank hblank cs).symm
  | case5 read c cs hne hblank =>
    exact (skip_cons (Bool.eq_false_iff.2 hblank) (head_ne_of_forall hne)).symm

/-- After layout there is no more layout. -/
theorem skip_after (b : Bool) (cs : List Char) : skip (after b cs) = after b cs := by
  induction b, cs using induction_on_pieces with
  | nil b => rw [after_nil, skip_nil]
  | comment c cs ih => exact ih
  | start cs ih => exact ih
  | blank c cs hblank ih =>
    have hskip : after false (c :: cs) = after false cs := skip_blank hblank cs
    rw [hskip, ih]
  | other c cs hblank hc =>
    have hskip : after false (c :: cs) = c :: cs := skip_cons hblank hc
    rw [hskip]
    exact hskip

@[simp]
theorem skip_skip (cs : List Char) : skip (skip cs) = skip cs := skip_after false cs

/-- The end of a line ends a comment. -/
theorem after_line (b : Bool) (cs : List Char) : after b ('\n' :: cs) = skip cs := by
  cases b with
  | true => rfl
  | false => exact skip_blank rfl cs

theorem length_after_le (b : Bool) (cs : List Char) : (after b cs).length ≤ cs.length := by
  induction b, cs using induction_on_pieces with
  | nil b => exact Nat.le_of_eq (congrArg List.length (after_nil b))
  | comment c cs ih => exact Nat.le_succ_of_le ih
  | start cs ih => exact Nat.le_succ_of_le (Nat.le_succ_of_le ih)
  | blank c cs hblank ih =>
    have hskip : after false (c :: cs) = after false cs := skip_blank hblank cs
    rw [hskip]
    exact Nat.le_succ_of_le ih
  | other c cs hblank hc => exact Nat.le_of_eq (congrArg List.length (skip_cons hblank hc))

/-- What is left after layout does not start with a blank. -/
theorem isBlank_of_skip {c : Char} (h : skip (c :: cs) = c :: cs) : isBlank c = false := by
  by_contra hblank
  have hle := length_after_le false cs
  have heq : after false cs = c :: cs := (skip_blank (by simpa using hblank) cs).symm.trans h
  rw [heq, List.length_cons] at hle
  omega

/-- What is left after layout does not start a comment. -/
theorem head_ne_of_skip (h : skip ('/' :: cs) = '/' :: cs) : cs.head? ≠ some '/' := by
  intro hc
  obtain ⟨cs', rfl⟩ : ∃ cs', cs = '/' :: cs' := by
    cases cs <;> simp_all
  have hle : (after true cs').length ≤ cs'.length := length_after_le true cs'
  have heq : after true cs' = '/' :: '/' :: cs' := h
  rw [heq] at hle
  simp only [List.length_cons] at hle
  omega

/-- Whether a text that is nothing but layout ends in a comment. -/
def state? : (inComment : Bool) → List Char → Option Bool
  | b, [] => some b
  | true, c :: cs => state? (c != '\n') cs
  | false, '/' :: '/' :: cs => state? true cs
  | false, c :: cs => if isBlank c then state? false cs else none

theorem state?_nil (b : Bool) : state? b [] = some b := by cases b <;> rfl

theorem state?_char {c : Char} (hc : c = '/' → cs.head? ≠ some '/') :
    state? false (c :: cs) = if isBlank c then state? false cs else none := by
  rw [state?]
  rintro cs' rfl rfl
  exact hc rfl rfl

theorem state?_blank {c : Char} (h : isBlank c = true) (cs : List Char) :
    state? false (c :: cs) = state? false cs := by
  rw [state?_char fun hc => absurd hc (ne_slash_of_isBlank h), if_pos h]

theorem state?_cons {c : Char} (h : isBlank c = false) (hc : c = '/' → cs.head? ≠ some '/') :
    state? false (c :: cs) = none := by
  rw [state?_char hc, if_neg (Bool.eq_false_iff.1 h)]

theorem after_append_of_state? {b b' : Bool} (h : state? b cs = some b') (ds : List Char) :
    after b (cs ++ ds) = after b' ds := by
  induction b, cs using induction_on_pieces with
  | nil b =>
    rw [state?_nil] at h
    cases h
    rfl
  | comment c cs ih => exact ih h
  | start cs ih => exact ih h
  | blank c cs hblank ih =>
    rw [state?_blank hblank] at h
    exact (skip_blank hblank _).trans (ih h)
  | other c cs hblank hc =>
    rw [state?_cons hblank hc] at h
    cases h

theorem exists_state?_of_after {b : Bool} (h : after b cs = []) : ∃ b', state? b cs = some b' := by
  induction b, cs using induction_on_pieces with
  | nil b => exact ⟨b, state?_nil b⟩
  | comment c cs ih => exact ih h
  | start cs ih => exact ih h
  | blank c cs hblank ih =>
    rw [state?_blank hblank]
    exact ih ((skip_blank hblank cs).symm.trans h)
  | other c cs hblank hc => cases (skip_cons hblank hc).symm.trans h

/-- Layout with something after it does not end in a comment. -/
theorem state?_of_after_append {b : Bool} (h : after b (cs ++ ds) = ds) (hds : ds ≠ []) :
    state? b cs = some false := by
  induction b, cs using induction_on_pieces with
  | nil b =>
    cases b with
    | false => rfl
    | true =>
      obtain ⟨d, ds, rfl⟩ := List.exists_cons_of_ne_nil hds
      have hle := length_after_le (d != '\n') ds
      have heq : after (d != '\n') ds = d :: ds := h
      rw [heq, List.length_cons] at hle
      omega
  | comment c cs ih => exact ih h
  | start cs ih => exact ih h
  | blank c cs hblank ih =>
    rw [state?_blank hblank]
    exact ih ((skip_blank hblank _).symm.trans h)
  | other c cs hblank hc =>
    by_cases hc' : c = '/' → (cs ++ ds).head? ≠ some '/'
    · have heq := (skip_cons hblank hc').symm.trans h
      have hlen := congrArg List.length heq
      simp only [List.length_cons, List.length_append] at hlen
      omega
    · push Not at hc'
      obtain ⟨rfl, hhead⟩ := hc'
      cases cs with
      | cons c' cs => exact absurd hhead (hc rfl)
      | nil =>
        -- a comment starts with the first character after `cs`
        obtain ⟨ds, rfl⟩ : ∃ ds', ds = '/' :: ds' := List.head?_eq_some_iff.1 hhead
        have hle := length_after_le true ds
        have heq : after true ds = '/' :: ds := h
        rw [heq, List.length_cons] at hle
        omega

/-- What stands after layout stays there with more text behind it. -/
theorem after_append_of_ne {b : Bool} (h : after b cs ≠ []) (hds : ds.head? ≠ some '/') :
    after b (cs ++ ds) = after b cs ++ ds := by
  induction b, cs using induction_on_pieces with
  | nil b => exact absurd (after_nil b) h
  | comment c cs ih => exact ih h
  | start cs ih => exact ih h
  | blank c cs hblank ih =>
    have hskip : after false (c :: cs) = after false cs := skip_blank hblank cs
    rw [hskip] at h ⊢
    exact (skip_blank hblank _).trans (ih h)
  | other c cs hblank hc =>
    have hskip : after false (c :: cs) = c :: cs := skip_cons hblank hc
    rw [hskip]
    refine skip_cons hblank ?_
    rintro rfl
    cases cs with
    | nil => exact hds
    | cons d cs => exact hc rfl

end Layout

open Layout (skip)

@[simp]
theorem Gap.skip_layout (cs : List Char) : Gap.layout.skip cs = Layout.skip cs :=
  Layout.scan_after [] false cs

/-! ## Texts -/

theorem stripText_eq_some_iff {t : List Char} : stripText t cs = some rest ↔ cs = t ++ rest := by
  fun_induction stripText t cs <;> simp_all [eq_comm]

@[simp]
theorem stripText_append (t rest : List Char) : stripText t (t ++ rest) = some rest :=
  stripText_eq_some_iff.2 rfl

theorem parse_text {t : List Char} (h : cs = t ++ rest) :
    (text t).parse cs = some (.ofText t, rest) := by
  rw [h, parse, stripText_append, Option.map_some]

theorem parse_text_eq_some {t : List Char} (h : (text t).parse cs = some (y, rest)) :
    cs = t ++ rest ∧ y = .ofText t := by
  rw [parse, Option.map_eq_some_iff] at h
  obtain ⟨r, hr, heq⟩ := h
  cases heq
  exact ⟨stripText_eq_some_iff.1 hr, rfl⟩

/-- Repetition of one character class. -/
theorem iterate_char {p : Pattern} {f : Char → Bool} (hp : ∀ cs, p.parse cs = (char f).parse cs) :
    ∀ cs, iterate p.parse cs = (.ofText (cs.takeWhile f), cs.dropWhile f)
  | [] => iterate_none (by rw [hp]; rfl)
  | c :: cs => by
    by_cases hc : f c = true
    · have hstep : p.parse (c :: cs) = some (.ofText [c], cs) := by
        simp [hp, Pattern.parse, hc]
      rw [iterate_some hstep (Nat.lt_succ_self _), iterate_char hp cs]
      simp [hc]
    · have hstep : p.parse (c :: cs) = none := by
        simp [hp, Pattern.parse, hc]
      rw [iterate_none hstep]
      simp only [List.takeWhile_cons, List.dropWhile_cons, hc]
      rfl

theorem parse_many_char {p : Pattern} {f : Char → Bool} (hc : p.consumes = true)
    (hp : ∀ cs, p.parse cs = (char f).parse cs) (cs : List Char) :
    (many .none p).parse cs = some (.ofText (cs.takeWhile f), cs.dropWhile f) := by
  rw [parse_many_tight hc, iterate_char hp]

theorem parse_atLeastOne_char {f : Char → Bool} (cs : List Char) :
    (atLeastOne (char f)).parse cs =
      if cs.takeWhile f = [] then none else some (.ofText (cs.takeWhile f), cs.dropWhile f) := by
  rw [atLeastOne, parse]
  cases cs with
  | nil => rfl
  | cons c cs =>
    by_cases hc : f c = true
    · rw [parse, if_pos hc, Option.bind_some, Gap.none_parse, parse_many_char rfl fun _ => rfl]
      simp [hc]
    · simp [parse, hc]

/-! ## Words -/

/-- The longest word at the start of the input. -/
def word (cs : List Char) : List Char := cs.takeWhile isWordChar

/-- What follows the longest word. -/
def afterWord (cs : List Char) : List Char := cs.dropWhile isWordChar

@[simp]
theorem word_append_afterWord (cs : List Char) : word cs ++ afterWord cs = cs :=
  List.takeWhile_append_dropWhile

/-- The reserved words. -/
def keywords : List (List Char) :=
  [['l', 'e', 't'], ['f', 'n'], ['r', 'e', 't', 'u', 'r', 'n'], ['p', 'r', 'i', 'n', 't'],
    ['i', 'f'], ['e', 'l', 's', 'e'], ['t', 'r', 'u', 'e'], ['f', 'a', 'l', 's', 'e'],
    ['n', 'i', 'l'], ['a', 'n', 'd'], ['o', 'r']]

theorem isWordChar_of_mem_keywords : ∀ w ∈ keywords, ∀ c ∈ w, isWordChar c = true := by
  have hall : (keywords.all fun w => w.all isWordChar) = true := rfl
  exact fun w hw => List.all_eq_true.1 (List.all_eq_true.1 hall w hw)

/-- A name : it starts with a letter or an underscore, goes on with letters, digits and
underscores, and is no reserved word. -/
def IsName (w : List Char) : Prop :=
  (∃ c w', w = c :: w' ∧ isWordStart c = true) ∧ (∀ c ∈ w, isWordChar c = true) ∧ w ∉ keywords

theorem isName_iff {w : List Char} : IsName w ↔
    w.head?.any isWordStart = true ∧ w.all isWordChar = true ∧ w ∉ keywords := by
  rw [IsName, List.all_eq_true]
  cases w with
  | nil => simp
  | cons c w => simp

instance (w : List Char) : Decidable (IsName w) := decidable_of_iff _ isName_iff.symm

/-- No word goes on here. -/
def WordEnds (cs : List Char) : Prop := ∀ c ∈ cs.head?, isWordChar c = false

theorem wordEnds_afterWord (cs : List Char) : WordEnds (afterWord cs) := by
  intro c hc
  cases h : afterWord cs with
  | nil => simp [h] at hc
  | cons d ds =>
    obtain rfl : d = c := by simpa [h] using hc
    have hne : cs.dropWhile isWordChar ≠ [] := by
      rw [← afterWord, h]
      exact List.cons_ne_nil d ds
    have hd := List.head_dropWhile_not isWordChar hne
    simpa only [← afterWord.eq_def, h, List.head_cons, Bool.not_eq_true] using hd

theorem word_append {w : List Char} (hw : ∀ c ∈ w, isWordChar c = true) (h : WordEnds rest) :
    word (w ++ rest) = w ∧ afterWord (w ++ rest) = rest := by
  have hrest : rest.takeWhile isWordChar = [] ∧ rest.dropWhile isWordChar = rest := by
    cases rest with
    | nil => exact ⟨rfl, rfl⟩
    | cons c cs => simp [h c rfl]
  rw [word, afterWord, List.takeWhile_append_of_pos hw, List.dropWhile_append_of_pos hw,
    hrest.1, hrest.2, List.append_nil]
  exact ⟨rfl, rfl⟩

theorem parse_identChar (cs : List Char) :
    (rule .identChar).parse cs = (char isWordChar).parse cs := by
  rw [parse, Rule.parse_eq]
  simp only [Rule.body, Rule.yield, Rule.kind]
  cases (char isWordChar).parse cs <;> rfl

theorem parse_notAhead_identChar (cs : List Char) :
    (notAhead (rule .identChar)).parse cs =
      if word cs = [] then some (.empty, cs) else none := by
  rw [parse, parse_identChar]
  cases cs with
  | nil => rfl
  | cons c cs =>
    by_cases hc : isWordChar c = true
    · simp [parse, word, hc]
    · simp [parse, word, hc]

/-- The pattern matches the first of some texts that is at the start of the input. -/
def IsTexts (p : Pattern) (ks : List (List Char)) : Prop :=
  ∀ cs, p.parse cs = ks.findSome? fun k => (stripText k cs).map fun rest => (.ofText k, rest)

theorem isTexts_text (k : List Char) : IsTexts (text k) [k] := by
  intro cs
  rw [parse, List.findSome?_singleton]

theorem IsTexts.alt {p q : Pattern} {ks ks' : List (List Char)} (hp : IsTexts p ks)
    (hq : IsTexts q ks') : IsTexts (alt p q) (ks ++ ks') := by
  intro cs
  rw [parse, hp cs, hq cs, List.findSome?_append]

/-- Texts of which none starts another one. -/
def PrefixFree (ks : List (List Char)) : Prop := ∀ k ∈ ks, ∀ k' ∈ ks, k <+: k' → k = k'

instance (ks : List (List Char)) : Decidable (PrefixFree ks) :=
  inferInstanceAs (Decidable (∀ k ∈ ks, ∀ k' ∈ ks, k <+: k' → k = k'))

/-- Some words, of which none starts another one, match where they are the longest word. -/
theorem IsTexts.parse_wholeWord {p : Pattern} {ks : List (List Char)} (hp : IsTexts p ks)
    (hks : ∀ k ∈ ks, ∀ c ∈ k, isWordChar c = true) (hfree : PrefixFree ks) (cs : List Char) :
    (wholeWord p).parse cs =
      if word cs ∈ ks then some (.ofText (word cs), afterWord cs) else none := by
  have hstrip : ∀ k ∈ ks, ∀ rest, stripText k cs = some rest →
      cs = k ++ rest ∧ k ++ word rest = word cs ∧ afterWord rest = afterWord cs := by
    intro k hk rest hrest
    obtain rfl := stripText_eq_some_iff.1 hrest
    refine ⟨rfl, ?_, ?_⟩
    · rw [word, word, List.takeWhile_append_of_pos (hks k hk)]
    · rw [afterWord, afterWord, List.dropWhile_append_of_pos (hks k hk)]
  have hself : word cs ∈ ks → stripText (word cs) cs = some (afterWord cs) := fun _ =>
    stripText_eq_some_iff.2 (word_append_afterWord cs).symm
  rw [wholeWord, Pattern.word, List.foldr_cons, List.foldr_nil, parse, hp cs]
  cases h : ks.findSome? fun k => (stripText k cs).map fun rest => (Yield.ofText k, rest) with
  | none =>
    have hnone : word cs ∉ ks := fun hw => by
      have := List.findSome?_eq_none_iff.1 h _ hw
      simp [hself hw] at this
    simp [hnone]
  | some m =>
    obtain ⟨k, hk, hm⟩ := List.exists_of_findSome?_eq_some h
    obtain ⟨rest, hrest, rfl⟩ := Option.map_eq_some_iff.1 hm
    obtain ⟨-, hword, hafter⟩ := hstrip k hk rest hrest
    simp only [Option.bind_some, Gap.none_parse, parse_notAhead_identChar]
    by_cases hend : word rest = []
    · have hkw : k = word cs := by rw [← hword, hend, List.append_nil]
      have hrest' : rest = afterWord cs := by
        rw [← hafter]
        have := word_append_afterWord rest
        rw [hend, List.nil_append] at this
        exact this.symm
      simp [hend, ← hkw, hk, ← hrest']
    · have hnot : word cs ∉ ks := fun hw => by
        have hkw := hfree k hk (word cs) hw ⟨word rest, hword⟩
        rw [hkw] at hword
        exact hend (List.append_right_eq_self.1 hword)
      simp [hend, hnot]

namespace Rule

theorem parse_atomic {r : Rule} (h : r.kind = .atomic) (cs : List Char) :
    r.parse cs = (r.body.parse cs).map fun m => (.ofNode r (.ofText m.1.full), m.2) := by
  rw [parse_eq]
  refine congrArg (Option.map · _) (funext fun m => ?_)
  rw [Rule.yield, h]

/-- The rule of one word. -/
theorem parse_keyword {r : Rule} {k : List Char} (hbody : r.body = wholeWord (text k))
    (hkind : r.kind = .atomic) (hk : ∀ c ∈ k, isWordChar c = true) (cs : List Char) :
    r.parse cs =
      if word cs = k then some (.ofNode r (.ofText k), afterWord cs) else none := by
  have hfree : PrefixFree [k] := by simp [PrefixFree]
  rw [parse_atomic hkind, hbody, (isTexts_text k).parse_wholeWord (by simpa using hk) hfree]
  by_cases h : word cs = k <;> simp [h]

theorem isTexts_keywords : IsTexts (choice [text ['l', 'e', 't'], text ['f', 'n'],
    text ['r', 'e', 't', 'u', 'r', 'n'], text ['p', 'r', 'i', 'n', 't'], text ['i', 'f'],
    text ['e', 'l', 's', 'e'], text ['t', 'r', 'u', 'e'], text ['f', 'a', 'l', 's', 'e'],
    text ['n', 'i', 'l'], text ['a', 'n', 'd']] (text ['o', 'r'])) keywords :=
  (isTexts_text _).alt <| (isTexts_text _).alt <| (isTexts_text _).alt <| (isTexts_text _).alt <|
    (isTexts_text _).alt <| (isTexts_text _).alt <| (isTexts_text _).alt <| (isTexts_text _).alt <|
    (isTexts_text _).alt <| (isTexts_text _).alt <| isTexts_text _

theorem parse_notAhead_keyword (cs : List Char) :
    (notAhead (rule .keyword)).parse cs =
      if word cs ∈ keywords then none else some (.empty, cs) := by
  rw [Pattern.parse, Pattern.parse, parse_atomic rfl, body,
    isTexts_keywords.parse_wholeWord isWordChar_of_mem_keywords (by decide)]
  by_cases h : word cs ∈ keywords <;> simp [h]

theorem parse_booleanLiteral (cs : List Char) : Rule.booleanLiteral.parse cs =
    if word cs ∈ [['t', 'r', 'u', 'e'], ['f', 'a', 'l', 's', 'e']] then
      some (.ofNode .booleanLiteral (.ofText (word cs)), afterWord cs) else none := by
  have htexts := (isTexts_text ['t', 'r', 'u', 'e']).alt (isTexts_text ['f', 'a', 'l', 's', 'e'])
  have hwords : ∀ w ∈ [['t', 'r', 'u', 'e'], ['f', 'a', 'l', 's', 'e']], w ∈ keywords := by decide
  rw [parse_atomic rfl, body, htexts.parse_wholeWord
    (fun w hw => isWordChar_of_mem_keywords w (hwords w hw)) (by decide)]
  by_cases h : word cs ∈ [['t', 'r', 'u', 'e'], ['f', 'a', 'l', 's', 'e']] <;> simp [h]

/-- A name is the longest word, if that is a name. -/
theorem parse_identifier (cs : List Char) : Rule.identifier.parse cs =
    if IsName (word cs) then some (.ofNode .identifier (.ofText (word cs)), afterWord cs)
    else none := by
  rw [parse_atomic rfl, body]
  simp only [Pattern.word, List.foldr_cons, List.foldr_nil, parse_tight, parse_notAhead_keyword,
    parse_many_char rfl parse_identChar]
  by_cases hkw : word cs ∈ keywords
  · simp [hkw, IsName]
  rw [if_neg hkw, Option.bind_some]
  cases cs with
  | nil => simp [IsName, word, Pattern.parse]
  | cons c cs =>
    by_cases hc : isWordStart c = true
    · have hc' : isWordChar c = true := by
        simp only [isWordStart, isWordChar, Char.isAlphanum, Bool.or_eq_true] at hc ⊢
        tauto
      have hname : IsName (word (c :: cs)) := by
        refine ⟨⟨c, cs.takeWhile isWordChar, ?_, hc⟩, fun d hd => ?_, hkw⟩
        · simp [word, hc']
        · exact List.all_eq_true.1 List.all_takeWhile d hd
      rw [if_pos hname]
      simp [Pattern.parse, hc, word, afterWord, hc']
    · have hname : ¬IsName (word (c :: cs)) := by
        rintro ⟨⟨d, w', hw, hd⟩, -⟩
        rw [word, List.takeWhile_cons] at hw
        split at hw
        · cases hw
          exact hc hd
        · cases hw
      rw [if_neg hname]
      simp [Pattern.parse, hc]

end Rule

/-! ## Numerals -/

/-- The longest stretch of digits at the start of the input. -/
def digits (cs : List Char) : List Char := cs.takeWhile Char.isDigit

/-- What follows the longest stretch of digits. -/
def afterDigits (cs : List Char) : List Char := cs.dropWhile Char.isDigit

@[simp]
theorem digits_append_afterDigits (cs : List Char) : digits cs ++ afterDigits cs = cs :=
  List.takeWhile_append_dropWhile

theorem digits_append {ds : List Char} (hds : ∀ d ∈ ds, d.isDigit = true)
    (hrest : digits rest = []) : digits (ds ++ rest) = ds ∧ afterDigits (ds ++ rest) = rest := by
  have hafter : afterDigits rest = rest := by
    have happend := digits_append_afterDigits rest
    rw [hrest] at happend
    exact happend
  rw [digits, afterDigits, List.takeWhile_append_of_pos hds, List.dropWhile_append_of_pos hds,
    ← digits.eq_def, ← afterDigits.eq_def, hrest, hafter, List.append_nil]
  exact ⟨rfl, rfl⟩

theorem digits_afterDigits (cs : List Char) : digits (afterDigits cs) = [] := by
  cases h : afterDigits cs with
  | nil => rfl
  | cons d ds =>
    have hne : cs.dropWhile Char.isDigit ≠ [] := by
      rw [← afterDigits, h]
      exact List.cons_ne_nil d ds
    have hd := List.head_dropWhile_not Char.isDigit hne
    simp only [← afterDigits.eq_def, h, List.head_cons] at hd
    simp [digits, hd]

/-- A point with digits after it, and what follows these. -/
def fraction? : List Char → Option (List Char × List Char)
  | '.' :: cs => if digits cs = [] then none else some (digits cs, afterDigits cs)
  | _ => none

theorem parse_fraction (cs : List Char) :
    (optional (Pattern.word [text ['.']] (atLeastOne (char Char.isDigit)))).parse cs =
      match fraction? cs with
      | some (fs, rest) => some (.ofText ('.' :: fs), rest)
      | none => some (.empty, cs) := by
  rw [Pattern.optional, Pattern.word, List.foldr_cons, List.foldr_nil, parse, parse_tight]
  by_cases hp : ∃ cs', cs = '.' :: cs'
  · obtain ⟨cs', rfl⟩ := hp
    simp only [parse, stripText, if_true, Option.map_some, Option.bind_some,
      parse_atLeastOne_char, fraction?]
    by_cases hd : digits cs' = []
    · have hd' : cs'.takeWhile Char.isDigit = [] := hd
      simp [hd, hd']
    · have hd' : cs'.takeWhile Char.isDigit ≠ [] := hd
      simp [hd', digits, afterDigits]
  · have htext : (text ['.']).parse cs = none := by
      cases cs with
      | nil => rfl
      | cons c cs =>
        have hc : '.' ≠ c := fun h => hp ⟨cs, by rw [h]⟩
        simp [parse, stripText, hc]
    have hfraction : fraction? cs = none := by
      unfold fraction?
      split
      · next cs' => exact absurd ⟨cs', rfl⟩ hp
      · rfl
    rw [htext, hfraction]
    rfl

/-- Digits, and a fraction if there is one. -/
theorem Rule.parse_numericLiteral (cs : List Char) : Rule.numericLiteral.parse cs =
    if digits cs = [] then none
    else
      match fraction? (afterDigits cs) with
      | some (fs, rest) =>
        some (.ofNode .numericLiteral (.ofText (digits cs ++ '.' :: fs)), rest)
      | none => some (.ofNode .numericLiteral (.ofText (digits cs)), afterDigits cs) := by
  rw [parse_atomic rfl, body, Pattern.word, List.foldr_cons, List.foldr_nil, parse_tight,
    parse_atLeastOne_char]
  by_cases hd : digits cs = []
  · have hd' : cs.takeWhile Char.isDigit = [] := hd
    simp [hd, hd']
  · have hd' : cs.takeWhile Char.isDigit ≠ [] := hd
    rw [if_neg hd, if_neg hd', Option.bind_some, parse_fraction, ← afterDigits.eq_def]
    cases fraction? (afterDigits cs) with
    | none => simp [digits]
    | some m => simp [digits]

/-! ## Strings -/

/-- The characters of a string up to its quote, and what follows them. A backslash takes the
character after it along. -/
def quotedPart : List Char → List Char × List Char
  | [] => ([], [])
  | '"' :: cs => ([], '"' :: cs)
  | ['\\'] => ([], ['\\'])
  | '\\' :: c :: cs => ('\\' :: c :: (quotedPart cs).1, (quotedPart cs).2)
  | c :: cs => (c :: (quotedPart cs).1, (quotedPart cs).2)

theorem quotedPart_append (cs : List Char) : (quotedPart cs).1 ++ (quotedPart cs).2 = cs := by
  fun_induction quotedPart cs <;> simp_all

/-- The characters up to the quote are complete. -/
theorem quotedPart_fst (cs : List Char) :
    quotedPart (quotedPart cs).1 = ((quotedPart cs).1, []) := by
  fun_induction quotedPart cs with
  | case1 | case2 | case3 => rfl
  | case4 c cs ih => simp [quotedPart, ih]
  | case5 c cs hq hb hb' ih =>
    have hc : c ≠ '\\' := by
      rintro rfl
      cases cs with
      | nil => exact hb rfl rfl
      | cons d ds => exact hb' d ds rfl rfl
    rw [quotedPart] <;> simp_all

theorem quotedPart_quote {raw : List Char} (h : quotedPart raw = (raw, [])) (rest : List Char) :
    quotedPart (raw ++ '"' :: rest) = (raw, '"' :: rest) := by
  fun_induction quotedPart raw with
  | case1 => rfl
  | case2 cs => simp at h
  | case3 => simp at h
  | case4 c cs ih =>
    simp only [Prod.mk.injEq, List.cons.injEq, true_and] at h
    have hcs := ih (Prod.ext h.1 h.2)
    simp [quotedPart, hcs]
  | case5 c cs hq hb hb' ih =>
    simp only [Prod.mk.injEq, List.cons.injEq, true_and] at h
    have hcs := ih (Prod.ext h.1 h.2)
    have hc : c ≠ '\\' := by
      rintro rfl
      cases cs with
      | nil => exact hb rfl rfl
      | cons d ds => exact hb' d ds rfl rfl
    rw [List.cons_append, quotedPart] <;> simp_all

/-- One character of a string, or two if the first one is a backslash. -/
def Pattern.stringItem : Pattern :=
  alt (Pattern.word [notAhead (alt (text ['"']) (text ['\\']))] (char fun _ => true))
    (Pattern.word [text ['\\']] (char fun _ => true))

theorem parse_stringItem_plain {c : Char} (hq : c ≠ '"') (hb : c ≠ '\\') (cs : List Char) :
    stringItem.parse (c :: cs) = some (.ofText [c], cs) := by
  have hq' : '"' ≠ c := hq.symm
  have hb' : '\\' ≠ c := hb.symm
  simp [stringItem, Pattern.word, parse, stripText, hq', hb']

theorem parse_stringItem_escaped (c : Char) (cs : List Char) :
    stringItem.parse ('\\' :: c :: cs) = some (.ofText ['\\', c], cs) := by
  simp [stringItem, Pattern.word, parse, stripText]

theorem iterate_stringItem (cs : List Char) :
    iterate stringItem.parse cs = (.ofText (quotedPart cs).1, (quotedPart cs).2) := by
  fun_induction quotedPart cs with
  | case1 => exact iterate_none rfl
  | case2 cs => exact iterate_none rfl
  | case3 => exact iterate_none rfl
  | case4 c cs ih =>
    have hlt : cs.length < ('\\' :: c :: cs).length := by
      simp only [List.length_cons]
      omega
    rw [iterate_some (parse_stringItem_escaped c cs) hlt, ih]
    simp
  | case5 c cs hq hb hb' ih =>
    have hc : c ≠ '\\' := by
      rintro rfl
      cases cs with
      | nil => exact hb rfl rfl
      | cons d ds => exact hb' d ds rfl rfl
    rw [iterate_some (parse_stringItem_plain (fun h => hq h) hc cs) (Nat.lt_succ_self _), ih]
    simp

theorem Rule.parse_stringCharacters (cs : List Char) : Rule.stringCharacters.parse cs =
    some (.ofNode .stringCharacters (.ofText (quotedPart cs).1), (quotedPart cs).2) := by
  have hmany : (many .none stringItem).parse cs =
      some (.ofText (quotedPart cs).1, (quotedPart cs).2) := by
    rw [parse_many_tight rfl, iterate_stringItem]
  rw [parse_atomic rfl]
  exact congrArg (Option.map _) hmany

/-- A string goes to the first quote that no backslash stands before. -/
theorem Rule.parse_stringLiteral (cs : List Char) : Rule.stringLiteral.parse ('"' :: cs) =
    match (quotedPart cs).2 with
    | '"' :: rest =>
      some (.ofNode .stringLiteral ⟨[⟨.stringCharacters, .nowhere, (quotedPart cs).1, []⟩],
        ['"', '"'], '"' :: (quotedPart cs).1 ++ ['"']⟩, rest)
    | _ => none := by
  have hquote : (text ['"']).parse ('"' :: cs) = some (.ofText ['"'], cs) := parse_text rfl
  rw [parse_eq, body, Pattern.word, List.foldr_cons, List.foldr_cons, List.foldr_nil, parse_tight,
    hquote, Option.bind_some, parse_tight, Pattern.parse,
    parse_stringCharacters, Option.bind_some]
  cases h : (quotedPart cs).2 with
  | nil => rfl
  | cons c rest =>
    by_cases hc : c = '"'
    · subst hc
      rfl
    · have hc' : '"' ≠ c := fun h => hc h.symm
      simp only [Pattern.parse, stripText, hc', if_false, Option.map_none]
      split
      · next heq =>
        cases heq
        exact absurd rfl hc
      · rfl

end Scoped.Grammar
