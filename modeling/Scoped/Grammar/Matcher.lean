import Scoped.Grammar.Layout
import Scoped.Grammar.Tree

/-!
# Matching

`Pattern.run` matches a pattern at the start of a text. It is total : every call is made
on a shorter text, or on the same text for rules of smaller rank, or on the same text and
rank for a smaller pattern. That the text gets shorter is part of the result : a `Match`
of a pattern that consumes leaves less than it was given.
-/

namespace Scoped.Grammar

/-- A match. At most `limit` characters are left, and fewer when `consumes` holds. -/
structure Match (consumes : Bool) (limit : Nat) where
  /-- What was matched. -/
  parts : List Tree
  /-- What follows the match. -/
  rest : List Char
  /-- The length of what follows is bounded. -/
  length_rest : rest.length + consumes.toNat ≤ limit

theorem Match.length_rest_of {c d : Bool} {limit : Nat} (m : Match c limit) (h : c = d) :
    m.rest.length + d.toNat ≤ limit := by
  subst h
  exact m.length_rest

/-- What a match of a rule leaves in the tree, by the kind of the rule. -/
def Rule.wrap (r : Rule) (parts : List Tree) : List Tree :=
  match r.kind with
  | .silent => parts
  | .atomic => [.node r [.terminal (Tree.textAll parts)]]
  | .normal | .compound => [.node r parts]

/-- Cuts a gap off the front of a text. -/
def Gap.split : Gap → List Char → List Char × List Char
  | .none, cs => ([], cs)
  | .layout, cs => Layout.split cs

theorem Gap.length_rest_le (gap : Gap) (cs : List Char) : (gap.split cs).2.length ≤ cs.length := by
  cases gap
  · exact Nat.le_refl _
  · exact Layout.length_rest_le cs

/-- The tree of a gap. -/
def Gap.tree : List Char → List Tree
  | [] => []
  | cs => [.layout cs]

/-- What is left of a text after some characters at its front, if it starts with them. -/
def stripText : List Char → List Char → Option (List Char)
  | [], cs => some cs
  | _ :: _, [] => none
  | t :: ts, c :: cs => if t = c then stripText ts cs else none

theorem length_stripText {t cs rest : List Char} (h : stripText t cs = some rest) :
    rest.length + t.length = cs.length := by
  fun_induction stripText t cs with
  | case1 cs =>
    obtain rfl := Option.some.inj h
    rfl
  | case2 | case4 => contradiction
  | case3 t ts cs ih => exact congrArg Nat.succ (ih h)

namespace Pattern

theorem toNat_or_le {a b : Bool} {n₀ n₁ n₂ n₃ : Nat} (h₁ : n₁ + a.toNat ≤ n₀) (h₂ : n₂ ≤ n₁)
    (h₃ : n₃ + b.toNat ≤ n₂) : n₃ + (a || b).toNat ≤ n₀ := by
  cases a <;> cases b <;> simp_all <;> omega

theorem toNat_and_le_left {a b : Bool} {n₀ n₁ : Nat} (h : n₁ + a.toNat ≤ n₀) :
    n₁ + (a && b).toNat ≤ n₀ := by
  have : (a && b).toNat ≤ a.toNat := by cases a <;> simp [Bool.toNat_le]
  omega

theorem toNat_and_le_right {a b : Bool} {n₀ n₁ : Nat} (h : n₁ + b.toNat ≤ n₀) :
    n₁ + (a && b).toNat ≤ n₀ := by
  have : (a && b).toNat ≤ b.toNat := by cases a <;> simp
  omega

theorem length_add_consumes_text {t cs rest : List Char} (h : stripText t cs = Option.some rest) :
    rest.length + (text t).consumes.toNat ≤ cs.length := by
  have := length_stripText h
  cases t with
  | nil => exact Nat.le_of_eq this
  | cons => exact Nat.le_trans (Nat.add_le_add_left (Nat.succ_pos _) _) (Nat.le_of_eq this)

/-- The part after a gap is matched on a shorter text, or on the same text and rank. -/
theorem lex_after {p : Pattern} {k n₀ n₁ n₂ a b : Nat} (h₁ : n₁ + p.consumes.toNat ≤ n₀)
    (h₂ : n₂ ≤ n₁) (hab : a < b) :
    Prod.Lex (· < ·) (Prod.Lex (· < ·) (· < ·))
      (n₂, bif p.consumes then Rule.topRank else k, a) (n₀, k, b) := by
  cases hp : p.consumes
  · rcases Nat.lt_or_eq_of_le (Nat.le_trans h₂ (Nat.le_of_add_right_le h₁)) with h | rfl
    · exact .left _ _ h
    · exact .right _ (.right _ hab)
  · rw [hp] at h₁
    exact .left _ _ (Nat.lt_of_le_of_lt h₂ h₁)

mutual

/-- Matches a pattern at the start of a text. -/
def run (k : Nat) (p : Pattern) (ranked : p.Ranked k) (input : List Char) :
    Option (Match p.consumes input.length) :=
  match p with
  | empty => some ⟨[], input, Nat.le_refl _⟩
  | finish => if input.isEmpty then some ⟨[], input, Nat.le_refl _⟩ else none
  | text t =>
    match h : stripText t input with
    | some rest => some ⟨[.terminal t], rest, length_add_consumes_text h⟩
    | none => none
  | char accepts =>
    match input with
    | [] => none
    | c :: cs => if accepts c then some ⟨[.terminal [c]], cs, Nat.le_refl _⟩ else none
  | seq gap p q =>
    match p.run k ranked.1 input with
    | none => none
    | some m =>
      match q.run (bif p.consumes then Rule.topRank else k) ranked.2 (gap.split m.rest).2 with
      | none => none
      | some m' => some ⟨m.parts ++ (Gap.tree (gap.split m.rest).1 ++ m'.parts), m'.rest,
          toNat_or_le m.length_rest (gap.length_rest_le m.rest) m'.length_rest⟩
  | alt p q =>
    match p.run k ranked.1 input with
    | some m => some ⟨m.parts, m.rest, toNat_and_le_left m.length_rest⟩
    | none =>
      match q.run k ranked.2 input with
      | some m => some ⟨m.parts, m.rest, toNat_and_le_right m.length_rest⟩
      | none => none
  | many gap p =>
    match p.run k ranked.2 input with
    | none => some ⟨[], input, Nat.le_refl _⟩
    | some m =>
      some (p.runMore gap k ranked.1 ranked.2 m.parts.reverse m.rest input.length
        (Nat.le_of_add_right_le m.length_rest))
  | ahead p =>
    match p.run k ranked input with
    | some _ => some ⟨[], input, Nat.le_refl _⟩
    | none => none
  | notAhead p =>
    match p.run k ranked input with
    | some _ => none
    | none => some ⟨[], input, Nat.le_refl _⟩
  | rule r =>
    match r.body.run r.rank r.ranked_body input with
    | some m => some ⟨r.wrap m.parts, m.rest, m.length_rest_of r.consumes_body⟩
    | none => none
termination_by (input.length, k, 2 * p.size)
decreasing_by
  · exact .right _ (.right _ (by simp only [size]; omega))
  · exact lex_after m.length_rest (gap.length_rest_le m.rest) (by simp only [size]; omega)
  · exact .right _ (.right _ (by simp only [size]; omega))
  · exact .right _ (.right _ (by simp only [size]; omega))
  · exact .right _ (.right _ (by simp only [size]; omega))
  · exact .left _ _ (m.length_rest_of ranked.1)
  · exact .right _ (.right _ (by simp only [size]; omega))
  · exact .right _ (.right _ (by simp only [size]; omega))
  · exact .right _ (.left _ _ ranked)

/-- Matches a pattern as often as it matches, with a gap before each match. `done` holds
the parts of the matches before, the last one first. A gap with no match after it is not
consumed. -/
def runMore (gap : Gap) (k : Nat) (p : Pattern) (consumes : p.consumes = true)
    (ranked : p.Ranked k) (done : List Tree) (input : List Char) (limit : Nat)
    (le_limit : input.length ≤ limit) : Match false limit :=
  match p.run k ranked (gap.split input).2 with
  | none => ⟨done.reverse, input, le_limit⟩
  | some m =>
    p.runMore gap k consumes ranked
      (m.parts.reverse ++ (Gap.tree (gap.split input).1 ++ done)) m.rest limit
      (Nat.le_trans (Nat.le_of_add_right_le m.length_rest)
        (Nat.le_trans (gap.length_rest_le input) le_limit))
termination_by (input.length, k, 2 * p.size + 1)
decreasing_by
  · rcases Nat.lt_or_eq_of_le (gap.length_rest_le input) with h | h
    · exact .left _ _ h
    · rw [h]; exact .right _ (.right _ (Nat.lt_succ_self _))
  · exact .left _ _ (Nat.lt_of_lt_of_le (m.length_rest_of consumes) (gap.length_rest_le input))

end

end Pattern

/-- Matches a rule at the start of a text. -/
def Rule.run (r : Rule) (input : List Char) : Option (Match r.consumes input.length) :=
  (Pattern.rule r).run (r.rank + 1) r.ranked_rule input

end Scoped.Grammar
