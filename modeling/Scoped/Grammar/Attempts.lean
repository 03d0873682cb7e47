import Scoped.Grammar.Matcher
import Scoped.Span

/-!
# What a failed match expected

When a match fails, the report names the rules that were tried at the furthest position.
Matching is repeated for it, with the attempts on record : `Pattern.trace` follows
`Pattern.run` step by step and threads `Attempts` through, which backtracking never takes
back.

A rule is put on record where it fails, or, under a negative lookahead, where it matches.
When more than one rule, or none, was recorded at the start of a rule while its body was
matched, the rule stands in for them; a single one is kept, since it says more. Nothing is
recorded inside an atomic rule.
-/

namespace Scoped.Grammar

/-- What decides whether the outcome of a rule is recorded, and as what. -/
inductive Lookahead where
  | none
  | positive
  | negative
deriving DecidableEq, Repr

/-- The lookahead inside of a positive one. -/
def Lookahead.ahead : Lookahead → Lookahead
  | .negative => .negative
  | _ => .positive

/-- The lookahead inside of a negative one. -/
def Lookahead.notAhead : Lookahead → Lookahead
  | .negative => .positive
  | _ => .negative

/-- The rules on record at the furthest position, the last one first. -/
structure Attempts where
  /-- The furthest position at which a rule was recorded, in bytes. -/
  position : Nat
  /-- The rules that failed there. -/
  expected : List Rule
  /-- The rules that matched there and should not have. -/
  unexpected : List Rule

namespace Attempts

/-- Nothing on record. -/
def empty : Attempts := ⟨0, [], []⟩

/-- The number of rules on record at a position. -/
def countAt (a : Attempts) (pos : Nat) : Nat :=
  if a.position = pos then a.expected.length + a.unexpected.length else 0

/-- Keeps the rules at `pos` that are on record already in `before`. -/
def restore (a before : Attempts) (pos : Nat) : Attempts :=
  if a.position = pos then
    let kept := if before.position = pos then before else empty
    { a with
      expected := a.expected.drop (a.expected.length - kept.expected.length)
      unexpected := a.unexpected.drop (a.unexpected.length - kept.unexpected.length) }
  else a

/-- Records a rule at `pos`. A position further on drops what is recorded, one before it
is ignored. -/
def push (a : Attempts) (pos : Nat) (look : Lookahead) (r : Rule) : Attempts :=
  let a := if a.position < pos then ⟨pos, [], []⟩ else a
  if a.position = pos then
    if look = .negative then { a with unexpected := r :: a.unexpected }
    else { a with expected := r :: a.expected }
  else a

/-- Records the outcome of a rule at `pos`, given the record before its body was matched :
a single rule recorded at `pos` meanwhile is kept instead. -/
def record (a before : Attempts) (pos : Nat) (look : Lookahead) (r : Rule) : Attempts :=
  if a.countAt pos = before.countAt pos + 1 then a
  else (a.restore before pos).push pos look r

/-- Rules in a sentence, in their order and each once. -/
def enumerate (rules : List Rule) : String :=
  match (Rule.all.filter (· ∈ rules)).map Rule.name with
  | [] => ""
  | [a] => a
  | [a, b] => a ++ " or " ++ b
  | a :: as => ", ".intercalate (a :: as.dropLast) ++ ", or " ++ as.getLastD ""

/-- The report of a failed match. -/
def message (a : Attempts) : String :=
  match a.unexpected, a.expected with
  | [], [] => "unknown parsing error"
  | [], es => "expected " ++ enumerate es
  | us, [] => "unexpected " ++ enumerate us
  | us, es => "unexpected " ++ enumerate us ++ "; expected " ++ enumerate es

end Attempts

/-- How far a match got. -/
structure Reached (consumes : Bool) (limit : Nat) where
  /-- What follows the match. -/
  rest : List Char
  /-- The position of what follows, in bytes. -/
  position : Nat
  /-- The length of what follows is bounded. -/
  length_rest : rest.length + consumes.toNat ≤ limit

theorem Reached.length_rest_of {c d : Bool} {limit : Nat} (m : Reached c limit) (h : c = d) :
    m.rest.length + d.toNat ≤ limit := by
  subst h
  exact m.length_rest

/-- What surrounds a match. -/
structure Surroundings where
  /-- The lookahead that the match is under. -/
  look : Lookahead
  /-- Whether the match is inside an atomic rule. -/
  inAtomic : Bool

/-- What surrounds the body of a rule. -/
def Surroundings.inside (s : Surroundings) (r : Rule) : Surroundings :=
  match r.kind with
  | .atomic => { s with inAtomic := true }
  | .compound => { s with inAtomic := false }
  | .normal | .silent => s

/-- Records the outcome of a rule, if it is one to be recorded. -/
def Surroundings.record (s : Surroundings) (r : Rule) (pos : Nat) (matched : Bool)
    (before after : Attempts) : Attempts :=
  let outside := if r.kind = .compound then false else s.inAtomic
  if r.kind = .silent || outside || matched != (s.look = .negative) then after
  else after.record before pos s.look r

namespace Pattern

mutual

/-- Matches a pattern at the start of a text that stands at position `pos`, and records
the attempts. -/
def trace (k : Nat) (p : Pattern) (ranked : p.Ranked k) (s : Surroundings) (input : List Char)
    (pos : Nat) (a : Attempts) : Option (Reached p.consumes input.length) × Attempts :=
  match p with
  | empty => (some ⟨input, pos, Nat.le_refl _⟩, a)
  | finish => if input.isEmpty then (some ⟨input, pos, Nat.le_refl _⟩, a) else (none, a)
  | text t =>
    match h : stripText t input with
    | some rest => (some ⟨rest, pos + utf8Size t, length_add_consumes_text h⟩, a)
    | none => (none, a)
  | char accepts =>
    match input with
    | [] => (none, a)
    | c :: cs =>
      if accepts c then (some ⟨cs, pos + c.utf8Size, Nat.le_refl _⟩, a) else (none, a)
  | seq gap p q =>
    match p.trace k ranked.1 s input pos a with
    | (none, a) => (none, a)
    | (some m, a) =>
      match q.trace (bif p.consumes then Rule.topRank else k) ranked.2 s (gap.split m.rest).2
          (m.position + utf8Size (gap.split m.rest).1) a with
      | (none, a) => (none, a)
      | (some m', a) => (some ⟨m'.rest, m'.position,
          toNat_or_le m.length_rest (gap.length_rest_le m.rest) m'.length_rest⟩, a)
  | alt p q =>
    match p.trace k ranked.1 s input pos a with
    | (some m, a) => (some ⟨m.rest, m.position, toNat_and_le_left m.length_rest⟩, a)
    | (none, a) =>
      match q.trace k ranked.2 s input pos a with
      | (some m, a) => (some ⟨m.rest, m.position, toNat_and_le_right m.length_rest⟩, a)
      | (none, a) => (none, a)
  | many gap p =>
    match p.trace k ranked.2 s input pos a with
    | (none, a) => (some ⟨input, pos, Nat.le_refl _⟩, a)
    | (some m, a) =>
      p.traceMore gap k ranked.1 ranked.2 s m.rest m.position input.length
        (Nat.le_of_add_right_le m.length_rest) a
  | ahead p =>
    match p.trace k ranked { s with look := s.look.ahead } input pos a with
    | (some _, a) => (some ⟨input, pos, Nat.le_refl _⟩, a)
    | (none, a) => (none, a)
  | notAhead p =>
    match p.trace k ranked { s with look := s.look.notAhead } input pos a with
    | (some _, a) => (none, a)
    | (none, a) => (some ⟨input, pos, Nat.le_refl _⟩, a)
  | rule r =>
    match r.body.trace r.rank r.ranked_body (s.inside r) input pos a with
    | (some m, a') =>
      (some ⟨m.rest, m.position, m.length_rest_of r.consumes_body⟩, s.record r pos true a a')
    | (none, a') => (none, s.record r pos false a a')
termination_by (input.length, k, 2 * p.size)
decreasing_by
  · exact .right _ (.right _ (by simp only [size]; omega))
  · exact lex_after m.length_rest (gap.length_rest_le m.rest) (by simp only [size]; omega)
  · exact .right _ (.right _ (by simp only [size]; omega))
  · exact .right _ (.right _ (by simp only [size]; omega))
  · exact .right _ (.right _ (by simp only [size]; omega))
  · exact .left _ _ (m.length_rest_of ranked.1)
  · exact .right _ (.right _ (by simp only [size]; omega))
  · exact .right _ (.right _ (by simp only [size]; omega))
  · exact .right _ (.left _ _ ranked)

/-- Matches a pattern as often as it matches, with a gap before each match, and records
the attempts. -/
def traceMore (gap : Gap) (k : Nat) (p : Pattern) (consumes : p.consumes = true)
    (ranked : p.Ranked k) (s : Surroundings) (input : List Char) (pos limit : Nat)
    (le_limit : input.length ≤ limit) (a : Attempts) : Option (Reached false limit) × Attempts :=
  match p.trace k ranked s (gap.split input).2 (pos + utf8Size (gap.split input).1) a with
  | (none, a) => (some ⟨input, pos, le_limit⟩, a)
  | (some m, a) =>
    p.traceMore gap k consumes ranked s m.rest m.position limit
      (Nat.le_trans (Nat.le_of_add_right_le m.length_rest)
        (Nat.le_trans (gap.length_rest_le input) le_limit)) a
termination_by (input.length, k, 2 * p.size + 1)
decreasing_by
  · rcases Nat.lt_or_eq_of_le (gap.length_rest_le input) with h | h
    · exact .left _ _ h
    · rw [h]; exact .right _ (.right _ (Nat.lt_succ_self _))
  · exact .left _ _ (Nat.lt_of_lt_of_le (m.length_rest_of consumes) (gap.length_rest_le input))

end

end Pattern

/-- The attempts on record after a rule was matched at the start of a text. -/
def Rule.attempts (r : Rule) (input : List Char) : Attempts :=
  ((Pattern.rule r).trace (r.rank + 1) r.ranked_rule ⟨.none, false⟩ input 0 Attempts.empty).2

end Scoped.Grammar
