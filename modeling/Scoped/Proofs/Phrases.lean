import Scoped.Proofs.Lexical

/-!
# Matches up to layout

Above the level of tokens, layout may stand between any two parts of a pattern, and it does not
matter which of the parts it is counted to. `Pattern.Reads` and `Pattern.Fails` say what a pattern
matches in these terms : a position stands for all the positions that have the same text after
layout. In them the grammar is a grammar of tokens, and each construct has one lemma that says
when it reads something.

`Rule.rejects` is a test for the first character : a rule that rejects it reads nothing that
starts with it.
-/

namespace Scoped.Grammar

open Layout (skip)

variable {p q : Pattern} {cs cs' mid rest rest' : List Char} {ns ms : List Node}

theorem Layout.length_skip_le (cs : List Char) : (skip cs).length ≤ cs.length := by
  rw [← Gap.skip_layout]
  exact Layout.length_rest_le cs

namespace Pattern

/-- After layout the pattern matches, with these nodes, up to a position or to layout next to it. -/
def Reads (p : Pattern) (cs : List Char) (ns : List Node) (rest : List Char) : Prop :=
  ∃ y rest', p.parse (skip cs) = some (y, rest') ∧ y.nodes = ns ∧ skip rest' = skip rest

/-- After layout the pattern does not match. -/
def Fails (p : Pattern) (cs : List Char) : Prop := p.parse (skip cs) = none

theorem Reads.congr (h : p.Reads cs ns rest) (hcs : skip cs = skip cs')
    (hrest : skip rest = skip rest') : p.Reads cs' ns rest' := by
  obtain ⟨y, mid, hp, hns, hmid⟩ := h
  exact ⟨y, mid, by rw [← hcs]; exact hp, hns, hmid.trans hrest⟩

theorem Fails.congr (h : p.Fails cs) (hcs : skip cs = skip cs') : p.Fails cs' := by
  rw [Fails, ← hcs]
  exact h

theorem Reads.unique (h : p.Reads cs ns rest) (h' : p.Reads cs ms rest') :
    ns = ms ∧ skip rest = skip rest' := by
  obtain ⟨y, mid, hp, rfl, hmid⟩ := h
  obtain ⟨y', mid', hp', rfl, hmid'⟩ := h'
  rw [hp] at hp'
  cases hp'
  exact ⟨rfl, hmid.symm.trans hmid'⟩

theorem Reads.not_fails (h : p.Reads cs ns rest) : ¬p.Fails cs := by
  obtain ⟨y, mid, hp, -⟩ := h
  rw [Fails, hp]
  exact Option.some_ne_none _

theorem fails_or_reads (p : Pattern) (cs : List Char) :
    p.Fails cs ∨ ∃ ns rest, p.Reads cs ns rest := by
  cases h : p.parse (skip cs) with
  | none => exact .inl h
  | some m => exact .inr ⟨m.1.nodes, m.2, m.1, m.2, h, rfl, rfl⟩

/-- What a pattern that consumes reads is taken off the text. -/
theorem Reads.length_lt (h : p.Reads cs ns rest) (hp : p.consumes = true) :
    (skip rest).length < (skip cs).length := by
  obtain ⟨y, rest', hy, -, hrest⟩ := h
  have hlength := parse_length hy
  rw [hp] at hlength
  rw [← hrest]
  exact Nat.lt_of_le_of_lt (Layout.length_skip_le rest') hlength

/-! ## Sequences -/

theorem reads_seq : (seq .layout p q).Reads cs ns rest ↔
    ∃ ns₁ ns₂ mid, p.Reads cs ns₁ mid ∧ q.Reads mid ns₂ rest ∧ ns = ns₁ ++ ns₂ := by
  constructor
  · rintro ⟨y, rest', h, rfl, hrest⟩
    obtain ⟨⟨y₁, mid⟩, hp, h⟩ := Option.bind_eq_some_iff.1 h
    obtain ⟨⟨y', mid'⟩, hgap, heq⟩ := Option.map_eq_some_iff.1 h
    cases heq
    obtain ⟨⟨y₂, rest₂⟩, hq, heq⟩ := Option.map_eq_some_iff.1 hgap
    cases heq
    rw [Gap.skip_layout] at hq
    exact ⟨y₁.nodes, y₂.nodes, mid, ⟨y₁, mid, hp, rfl, rfl⟩, ⟨y₂, rest₂, hq, rfl, hrest⟩, rfl⟩
  · rintro ⟨_, _, mid, ⟨y₁, mid', hp, rfl, hmid⟩, ⟨y₂, rest', hq, rfl, hrest⟩, rfl⟩
    refine ⟨y₁ ++ (.ofLayout (Gap.layout.split mid').1 ++ y₂), rest', ?_, rfl, hrest⟩
    rw [← hmid, ← Gap.skip_layout] at hq
    rw [parse, hp, Option.bind_some, Gap.parse_some hq, Option.map_some]

theorem Fails.seq_left (h : p.Fails cs) : (Pattern.seq .layout p q).Fails cs := by
  rw [Fails, parse, h, Option.bind_none]

@[simp]
theorem phrase_nil (last : Pattern) : phrase [] last = last := rfl

@[simp]
theorem phrase_cons (p : Pattern) (ps : List Pattern) (last : Pattern) :
    phrase (p :: ps) last = .seq .layout p (phrase ps last) := rfl

/-! ## Choices -/

theorem Reads.alt_left (h : p.Reads cs ns rest) : (alt p q).Reads cs ns rest := by
  obtain ⟨y, rest', hp, hrest⟩ := h
  exact ⟨y, rest', by rw [parse, hp, Option.some_or], hrest⟩

theorem Reads.alt_right (hp : p.Fails cs) (hq : q.Reads cs ns rest) :
    (alt p q).Reads cs ns rest := by
  obtain ⟨y, rest', hq, hrest⟩ := hq
  exact ⟨y, rest', by rw [parse, hp, Option.none_or, hq], hrest⟩

theorem reads_alt : (alt p q).Reads cs ns rest ↔
    p.Reads cs ns rest ∨ p.Fails cs ∧ q.Reads cs ns rest := by
  refine ⟨fun h => ?_, fun h => h.elim .alt_left fun h => .alt_right h.1 h.2⟩
  obtain ⟨y, rest', h, hrest⟩ := h
  rw [parse] at h
  cases hp : p.parse (skip cs) with
  | some m =>
    rw [hp, Option.some_or] at h
    exact .inl ⟨y, rest', hp.trans h, hrest⟩
  | none =>
    rw [hp, Option.none_or] at h
    exact .inr ⟨hp, y, rest', h, hrest⟩

@[simp]
theorem choice_nil (last : Pattern) : choice [] last = last := rfl

@[simp]
theorem choice_cons (p : Pattern) (ps : List Pattern) (last : Pattern) :
    choice (p :: ps) last = .alt p (choice ps last) := rfl

theorem reads_empty : empty.Reads cs ns rest ↔ ns = [] ∧ skip cs = skip rest := by
  constructor
  · rintro ⟨y, rest', h, rfl, hrest⟩
    cases h
    exact ⟨rfl, (Layout.skip_skip cs).symm.trans hrest⟩
  · rintro ⟨rfl, h⟩
    exact ⟨.empty, skip cs, rfl, rfl, (Layout.skip_skip cs).trans h⟩

theorem reads_optional : (optional p).Reads cs ns rest ↔
    p.Reads cs ns rest ∨ p.Fails cs ∧ ns = [] ∧ skip cs = skip rest := by
  rw [Pattern.optional, reads_alt, reads_empty]

/-! ## Lookahead -/

theorem reads_ahead : (ahead p).Reads cs ns rest ↔
    ¬p.Fails cs ∧ ns = [] ∧ skip cs = skip rest := by
  unfold Reads Fails
  rw [parse]
  cases p.parse (skip cs) with
  | none => simp
  | some m => simp [eq_comm]

theorem Fails.ahead (h : p.Fails cs) : (Pattern.ahead p).Fails cs := by
  rw [Fails, parse, h, Option.map_none]

/-! ## Texts -/

theorem reads_text {t : List Char} : (text t).Reads cs ns rest ↔
    ns = [] ∧ ∃ mid, skip cs = t ++ mid ∧ skip mid = skip rest := by
  constructor
  · rintro ⟨y, mid, h, rfl, hrest⟩
    obtain ⟨hcs, rfl⟩ := parse_text_eq_some h
    exact ⟨rfl, mid, hcs, hrest⟩
  · rintro ⟨rfl, mid, hcs, hrest⟩
    exact ⟨.ofText t, mid, parse_text hcs, rfl, hrest⟩

theorem fails_text {t : List Char} (h : ∀ mid, skip cs ≠ t ++ mid) : (text t).Fails cs := by
  cases hp : (text t).parse (skip cs) with
  | none => exact hp
  | some m => exact absurd (parse_text_eq_some hp).1 (h m.2)

/-! ## Repetitions -/

/-- The pattern is read as often as it can be read. -/
inductive Repeats (p : Pattern) : List Char → List Node → List Char → Prop
  | nil {cs rest : List Char} : p.Fails cs → skip cs = skip rest → Repeats p cs [] rest
  | cons {cs mid rest : List Char} {ns ms : List Node} : p.Reads cs ns mid →
    Repeats p mid ms rest → Repeats p cs (ns ++ ms) rest

theorem Repeats.congr_right (h : p.Repeats cs ns rest) (hrest : skip rest = skip rest') :
    p.Repeats cs ns rest' := by
  induction h with
  | nil hf hcs => exact .nil hf (hcs.trans hrest)
  | cons hr _ ih => exact .cons hr (ih hrest)

theorem repeats_iterate (hp : p.consumes = true) (cs : List Char) :
    p.Repeats cs (iterate (Gap.layout.parse p.parse) cs).1.nodes
      (iterate (Gap.layout.parse p.parse) cs).2 := by
  fun_induction iterate (Gap.layout.parse p.parse) cs with
  | case1 cs h =>
    refine .nil ?_ rfl
    rw [Gap.parse, Option.map_eq_none_iff, Gap.skip_layout] at h
    exact h
  | case2 cs y mid h hlt ih =>
    obtain ⟨⟨z, mid'⟩, hz, heq⟩ := Option.map_eq_some_iff.1 h
    cases heq
    rw [Gap.skip_layout] at hz
    exact .cons ⟨z, mid', hz, rfl, rfl⟩ ih
  | case3 cs y mid h hlt =>
    -- a match of a pattern that consumes leaves less
    obtain ⟨⟨z, mid'⟩, hz, heq⟩ := Option.map_eq_some_iff.1 h
    cases heq
    rw [Gap.skip_layout] at hz
    have hlength := parse_length hz
    rw [hp] at hlength
    exact absurd (Nat.lt_of_lt_of_le hlength (Layout.length_skip_le cs)) hlt

theorem Repeats.iterate (hp : p.consumes = true) (h : p.Repeats cs ns rest) : ∀ cs',
    skip cs = skip cs' → (Grammar.iterate (Gap.layout.parse p.parse) cs').1.nodes = ns ∧
      skip (Grammar.iterate (Gap.layout.parse p.parse) cs').2 = skip rest := by
  induction h with
  | @nil cs rest hf hrest =>
    intro cs' hcs
    have hnone : Gap.layout.parse p.parse cs' = none := by
      refine Gap.parse_none ?_
      rw [Gap.skip_layout]
      exact hf.congr hcs
    rw [iterate_none hnone]
    exact ⟨rfl, hcs.symm.trans hrest⟩
  | @cons cs mid rest ns ms hr _ ih =>
    intro cs' hcs
    obtain ⟨y, mid', hy, rfl, hmid⟩ := hr
    rw [hcs, ← Gap.skip_layout] at hy
    have hlength := parse_length hy
    rw [hp, Gap.skip_layout] at hlength
    have hlt : mid'.length < cs'.length :=
      Nat.lt_of_lt_of_le hlength (Layout.length_skip_le cs')
    obtain ⟨hnodes, hrest⟩ := ih mid' hmid.symm
    rw [iterate_some (Gap.parse_some hy) hlt]
    exact ⟨by rw [← hnodes]; rfl, hrest⟩

theorem reads_many (hp : p.consumes = true) :
    (many .layout p).Reads cs ns rest ↔ p.Repeats cs ns rest := by
  unfold Reads
  rw [parse]
  constructor
  · rintro ⟨y, rest', h, rfl, hrest⟩
    cases hcs : p.parse (skip cs) with
    | none =>
      rw [hcs] at h
      cases h
      exact .nil hcs ((Layout.skip_skip cs).symm.trans hrest)
    | some m =>
      rw [hcs] at h
      cases h
      exact .cons ⟨m.1, m.2, hcs, rfl, rfl⟩ ((repeats_iterate hp m.2).congr_right hrest)
  · intro h
    cases h with
    | nil hf hrest =>
      rw [hf]
      exact ⟨_, _, rfl, rfl, (Layout.skip_skip cs).trans hrest⟩
    | @cons _ mid _ ns ms hr h =>
      obtain ⟨y, mid', hy, rfl, hmid⟩ := hr
      obtain ⟨hnodes, hrest⟩ := h.iterate hp mid' hmid.symm
      rw [hy]
      exact ⟨_, _, rfl, by rw [← hnodes]; rfl, hrest⟩

/-! ## Rules -/

theorem fails_rule {r : Rule} : (rule r).Fails cs ↔ r.body.Fails cs := by
  unfold Fails
  rw [parse, Rule.parse_eq, Option.map_eq_none_iff]

/-- A rule that leaves no node. -/
theorem reads_silent {r : Rule} (hr : r.kind = .silent) :
    (rule r).Reads cs ns rest ↔ r.body.Reads cs ns rest := by
  have hparse : (rule r).parse (skip cs) = r.body.parse (skip cs) := by
    rw [parse, Rule.parse_eq]
    cases r.body.parse (skip cs) with
    | none => rfl
    | some m => simp only [Option.map_some, Rule.yield, hr]
  unfold Reads
  rw [hparse]

theorem reads_rule {r : Rule} (hr : r.kind = .normal) (h : (Pattern.rule r).Reads cs ns rest) :
    ∃ text ms, ns = [⟨r, .nowhere, text, ms⟩] ∧ r.body.Reads cs ms rest := by
  obtain ⟨y, rest', hy, rfl, hrest⟩ := h
  rw [parse, Rule.parse_eq] at hy
  obtain ⟨⟨z, mid⟩, hz, heq⟩ := Option.map_eq_some_iff.1 hy
  cases heq
  refine ⟨z.text, z.nodes, ?_, z, mid, hz, rfl, hrest⟩
  rw [Rule.yield, hr]
  rfl

/-! ## First characters -/

/-- Whether a match of the pattern leaves all of the input. -/
def stays : Pattern → Bool
  | empty | ahead _ | notAhead _ => true
  | _ => false

/-- Whether the pattern can match nothing that starts with `c`, or nothing at the end of the input
if `c` is `none`, given the rules that cannot. -/
def rejects (rules : Rule → Bool) (c : Option Char) : Pattern → Bool
  | empty | many .. | notAhead _ | text [] => false
  | finish => c.isSome
  | text (t :: _) => c ≠ some t
  | char accepts => !c.any accepts
  | seq gap p q => p.rejects rules c || (gap = .none && p.stays && q.rejects rules c)
  | alt p q => p.rejects rules c && q.rejects rules c
  | ahead p => p.rejects rules c
  | rule r => rules r

theorem rest_of_stays {y : Yield} (hp : p.stays = true) (h : p.parse cs = some (y, rest)) :
    rest = cs := by
  cases p with
  | empty =>
    cases h
    rfl
  | ahead p =>
    obtain ⟨m, -, heq⟩ := Option.map_eq_some_iff.1 h
    cases heq
    rfl
  | notAhead p =>
    rw [parse] at h
    split at h <;> cases h
    rfl
  | _ => cases hp

theorem parse_of_rejects {rules : Rule → Bool} {c : Option Char}
    (hrules : ∀ r cs, rules r = true → cs.head? = c → r.parse cs = none) : ∀ {p : Pattern}
    {cs : List Char}, p.rejects rules c = true → cs.head? = c → p.parse cs = none
  | empty, _, h, _ | many .., _, h, _ | notAhead _, _, h, _ | text [], _, h, _ => by cases h
  | finish, cs, h, hc => by
    cases cs with
    | nil =>
      subst hc
      cases h
    | cons d ds => rfl
  | text (t :: ts), cs, h, hc => by
    cases cs with
    | nil => rfl
    | cons d ds =>
      subst hc
      have htd : t ≠ d := fun heq => by simp [rejects, heq] at h
      simp [parse, stripText, htd]
  | char accepts, cs, h, hc => by
    cases cs with
    | nil => rfl
    | cons d ds =>
      subst hc
      have hd : accepts d = false := by simpa [rejects] using h
      simp [parse, hd]
  | seq gap p q, cs, h, hc => by
    rw [parse]
    cases hp : p.parse cs with
    | none => rfl
    | some m =>
      have hnot : p.rejects rules c ≠ true := fun hrej => by
        rw [parse_of_rejects hrules hrej hc] at hp
        cases hp
      simp only [rejects, Bool.or_eq_true, Bool.and_eq_true, decide_eq_true_eq] at h
      obtain ⟨⟨rfl, hstays⟩, hq⟩ := h.resolve_left hnot
      have hrest : m.2 = cs := rest_of_stays hstays hp
      rw [Option.bind_some, Gap.none_parse, hrest, parse_of_rejects hrules hq hc]
      rfl
  | alt p q, cs, h, hc => by
    rw [rejects, Bool.and_eq_true] at h
    rw [parse, parse_of_rejects hrules h.1 hc, parse_of_rejects hrules h.2 hc]
    rfl
  | ahead p, cs, h, hc => by
    rw [parse, parse_of_rejects (p := p) hrules h hc]
    rfl
  | rule r, cs, h, hc => hrules r cs h hc

end Pattern

/-- Whether a rule can match nothing that starts with `c`, as far as `n` rules inside each other
show it. -/
def Rule.rejects : Nat → Option Char → Rule → Bool
  | 0, _, _ => false
  | n + 1, c, r => r.body.rejects (Rule.rejects n c) c

theorem Rule.parse_of_rejects {c : Option Char} : ∀ (n : Nat) (r : Rule) (cs : List Char),
    r.rejects n c = true → cs.head? = c → r.parse cs = none
  | 0, _, _, h, _ => by cases h
  | n + 1, r, cs, h, hc => by
    rw [Rule.parse_eq, Pattern.parse_of_rejects (Rule.parse_of_rejects n) h hc]
    rfl

/-- What starts with a character that the rule rejects is not read. -/
theorem Rule.fails_of_rejects {r : Rule} {c : Option Char} (hc : (skip cs).head? = c)
    (h : r.rejects topRank c = true) : (Pattern.rule r).Fails cs :=
  Rule.parse_of_rejects topRank r (skip cs) h hc

end Scoped.Grammar
