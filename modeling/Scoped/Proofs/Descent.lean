import Mathlib.Data.Prod.Lex
import Mathlib.Logic.Relation
import Scoped.Proofs.Searches

/-!
# Matching ends

A match asks for other matches, which ask for others. `Pattern.Calls` is what a match leads to in
this way. The calls go down : each is made at a later place of the text, or at the same place for a
pattern of no more height and, for one height, of less weight. The height of a pattern bounds the
ranks of the rules that it reaches without consuming, so that from rule to rule the pair of what is
left of the text and of the rank goes down. Hence no rule comes back to itself at one place,
whatever calls lie between, and no repetition goes on without consuming.

`Rule.match_terminates` puts this together with `Pattern.ends_iff`.
-/

namespace Scoped.Grammar

open Pattern

/-! ## Calls -/

/-- The matches that are asked for when a search is carried out. -/
inductive Search.Asks (q : Pattern) (ds : List Char) : Search → Prop
  | now {next : Option Found → Search} : Asks q ds (.ask q ds next)
  | later {p : Pattern} {cs : List Char} {next : Option Found → Search} {o : Option Found} :
    p.Ends cs o → Asks q ds (next o) → Asks q ds (.ask p cs next)

/-- A pattern, and the text at the start of which it is matched. -/
abbrev Site := Pattern × List Char

/-- The match at the first site asks for the match at the second. -/
def Site.Asks (x y : Site) : Prop := (x.1.search x.2).Asks y.1 y.2

/-- The match of the first pattern asks for a match of the second, directly or through others. -/
def Pattern.Calls (p : Pattern) (cs : List Char) (q : Pattern) (ds : List Char) : Prop :=
  Relation.TransGen Site.Asks (p, cs) (q, ds)

namespace Search

variable {p q : Pattern} {cs ds : List Char}

theorem not_asks_done (o : Option Found) : ¬(Search.done o).Asks q ds := by
  intro h
  cases h

theorem asks_ask {next : Option Found → Search} (h : (Search.ask p cs next).Asks q ds) :
    (q = p ∧ ds = cs) ∨ ∃ o, p.Ends cs o ∧ (next o).Asks q ds := by
  cases h with
  | now => exact .inl ⟨rfl, rfl⟩
  | later hp h => exact .inr ⟨_, hp, h⟩

theorem asks_after {next : List Tree → List Char → Search} (h : (after p cs next).Asks q ds) :
    (q = p ∧ ds = cs) ∨ ∃ ts rest, p.Ends cs (some (ts, rest)) ∧ (next ts rest).Asks q ds := by
  rcases asks_ask h with h | ⟨o, hp, h⟩
  · exact .inl h
  · cases o with
    | none => exact absurd h (not_asks_done _)
    | some m => exact .inr ⟨m.1, m.2, hp, h⟩

end Search

/-! ## The measure -/

/-- The height of the pattern of a gap. -/
def Gap.height : Gap → Nat
  | .none => 0
  | .layout => 1

/-- The weight of the pattern of a gap. -/
def Gap.weight : Gap → Nat
  | .none => 1
  | .layout => 10

namespace Pattern

/-- A rank above those of the rules that the pattern can come to without consuming. -/
def height : Pattern → Nat
  | empty | finish | text _ | char _ => 0
  | seq gap p q => max p.height (bif p.consumes then 0 else max gap.height q.height)
  | alt p q => max p.height q.height
  | many _ p | ahead p | notAhead p => p.height
  | rule r => r.rank + 1

/-- The size of a pattern, with the patterns of its gaps. -/
def weight : Pattern → Nat
  | empty | finish | text _ | char _ | rule _ => 1
  | seq gap p q => p.weight + gap.weight + q.weight + 1
  | alt p q => p.weight + q.weight + 1
  | many _ p | ahead p | notAhead p => p.weight + 1

end Pattern

theorem Gap.height_pattern (gap : Gap) : gap.pattern.height = gap.height := by
  cases gap <;> rfl

theorem Gap.weight_pattern (gap : Gap) : gap.pattern.weight = gap.weight := by
  cases gap <;> rfl

theorem Gap.ranked_pattern (gap : Gap) : gap.pattern.Ranked 1 := by
  cases gap <;> decide

/-- Without consuming, a rule comes to rules of smaller rank only, those of the layout included. -/
theorem Rule.height_body (r : Rule) : r.body.height ≤ r.rank := by
  cases r <;> decide

/-- What goes down along the calls : the length of what is left of the text, then the height, then
the weight of the pattern. -/
def Site.measure (x : Site) : Nat ×ₗ Nat ×ₗ Nat :=
  toLex (x.2.length, toLex (x.1.height, x.1.weight))

/-- The second site is below the first : what is matched there is well behaved, the text is what
is left of the text of the first, and the measure is smaller. -/
structure Site.Below (x y : Site) : Prop where
  ranked : ∃ k, y.1.Ranked k
  suffix : y.2 <:+ x.2
  lt : y.measure < x.measure

namespace Site

variable {x y z : Site}

theorem measure_lt_of_length (h : y.2.length < x.2.length) : y.measure < x.measure :=
  Prod.Lex.toLex_lt_toLex.2 (.inl h)

/-- At a text that is no longer, a pattern of no more height and less weight is below. -/
theorem measure_lt_of_weight (hlength : y.2.length ≤ x.2.length)
    (hheight : y.1.height ≤ x.1.height) (hweight : y.1.weight < x.1.weight) :
    y.measure < x.measure := by
  rcases hlength.lt_or_eq with hlt | heq
  · exact measure_lt_of_length hlt
  refine Prod.Lex.toLex_lt_toLex.2 (.inr ⟨heq, Prod.Lex.toLex_lt_toLex.2 ?_⟩)
  rcases hheight.lt_or_eq with hlt | heq
  · exact .inl hlt
  · exact .inr ⟨heq, hweight⟩

theorem measure_lt_of_height (hlength : y.2.length ≤ x.2.length)
    (hheight : y.1.height < x.1.height) : y.measure < x.measure := by
  rcases hlength.lt_or_eq with hlt | heq
  · exact measure_lt_of_length hlt
  · exact Prod.Lex.toLex_lt_toLex.2 (.inr ⟨heq, Prod.Lex.toLex_lt_toLex.2 (.inl hheight)⟩)

theorem Below.trans (h : x.Below y) (h' : y.Below z) : x.Below z :=
  ⟨h'.ranked, h'.suffix.trans h.suffix, h'.lt.trans h.lt⟩

end Site

/-! ## Calls go down -/

namespace Pattern

variable {p q : Pattern} {k : Nat} {cs ds rest : List Char} {ts : List Tree}

/-- What a match leaves is the end of the text, and shorter if the pattern consumes. -/
theorem Ends.leaves (h : p.Ends cs (some (ts, rest))) (ranked : p.Ranked k) :
    rest <:+ cs ∧ rest.length + p.consumes.toNat ≤ cs.length := by
  have hfinds := p.finds_run k ranked cs
  rw [← (ends_iff ranked).1 h] at hfinds
  exact ⟨⟨_, (hfinds.matches rfl).text_append⟩, hfinds.length ranked⟩

theorem Ends.leaves_less (h : p.Ends cs (some (ts, rest))) (ranked : p.Ranked k)
    (hp : p.consumes = true) : rest.length < cs.length := by
  have hlength := (h.leaves ranked).2
  rwa [hp] at hlength

/-- What comes after the first part of a sequence stands at a later place, or the first part does
not consume, and its height counts. -/
theorem measure_lt_after {gap : Gap} {y : Site}
    (hlength : y.2.length + p.consumes.toNat ≤ cs.length)
    (hheight : y.1.height ≤ max gap.height q.height)
    (hweight : y.1.weight < (seq gap p q).weight) :
    y.measure < Site.measure (seq gap p q, cs) := by
  cases hp : p.consumes with
  | true =>
    rw [hp] at hlength
    exact Site.measure_lt_of_length hlength
  | false =>
    rw [hp] at hlength
    refine Site.measure_lt_of_weight hlength ?_ hweight
    rw [height, hp]
    exact hheight.trans (le_max_right _ _)

/-- The parts of a sequence and the gap between them. -/
theorem below_seq {gap : Gap} {q' : Pattern} (ranked : (seq gap p q).Ranked k)
    (h : ((seq gap p q).search cs).Asks q' ds) : Site.Below (seq gap p q, cs) (q', ds) := by
  have hweight : (seq gap p q).weight = p.weight + gap.pattern.weight + q.weight + 1 := by
    rw [gap.weight_pattern, weight]
  rcases Search.asks_after h with ⟨rfl, rfl⟩ | ⟨ts, mid, hp, h⟩
  · refine ⟨⟨k, ranked.1⟩, List.suffix_rfl, Site.measure_lt_of_weight le_rfl ?_ ?_⟩
    · exact le_max_left _ _
    · simp only [hweight]
      omega
  obtain ⟨hmid, hlength⟩ := hp.leaves ranked.1
  rcases Search.asks_after h with ⟨rfl, rfl⟩ | ⟨ls, mid', hgap, h⟩
  · refine ⟨⟨1, gap.ranked_pattern⟩, hmid, measure_lt_after hlength ?_ ?_⟩
    · exact gap.height_pattern.trans_le (le_max_left _ _)
    · simp only [hweight]
      omega
  obtain ⟨hmid', hlength'⟩ := hgap.leaves gap.ranked_pattern
  rcases Search.asks_after h with ⟨rfl, rfl⟩ | ⟨us, rest, hq, h⟩
  · have hrest : ds.length + p.consumes.toNat ≤ cs.length := by omega
    refine ⟨⟨_, ranked.2⟩, hmid'.trans hmid, measure_lt_after hrest (le_max_right _ _) ?_⟩
    simp only [hweight]
    omega
  · exact absurd h (Search.not_asks_done _)

/-- The item of a repetition, and at a later place the repetition of the item after a gap. -/
theorem below_many {gap : Gap} {q' : Pattern} (ranked : (many gap p).Ranked k)
    (h : ((many gap p).search cs).Asks q' ds) : Site.Below (many gap p, cs) (q', ds) := by
  rcases Search.asks_ask h with ⟨rfl, rfl⟩ | ⟨o, hp, h⟩
  · exact ⟨⟨k, ranked.2⟩, List.suffix_rfl,
      Site.measure_lt_of_weight le_rfl le_rfl (Nat.lt_succ_self _)⟩
  cases o with
  | none => exact absurd h (Search.not_asks_done _)
  | some m =>
    rcases Search.asks_after h with ⟨rfl, rfl⟩ | ⟨us, rest, hmany, h⟩
    · have hitem : (many .none (gap.item p)).Ranked k := by
        cases gap with
        | none => exact ranked
        | layout => exact ⟨ranked.1, trivial, ranked.2⟩
      exact ⟨⟨k, hitem⟩, (hp.leaves ranked.2).1,
        Site.measure_lt_of_length (hp.leaves_less ranked.2 ranked.1)⟩
    · exact absurd h (Search.not_asks_done _)

/-- What a match asks for is below it. -/
theorem below_of_asks {p q : Pattern} (ranked : p.Ranked k) (h : (p.search cs).Asks q ds) :
    Site.Below (p, cs) (q, ds) := by
  cases p with
  | empty => exact absurd h (Search.not_asks_done _)
  | finish => exact absurd h (Search.not_asks_done _)
  | text t => exact absurd h (Search.not_asks_done _)
  | char accepts => cases cs <;> exact absurd h (Search.not_asks_done _)
  | seq gap p q => exact below_seq ranked h
  | many gap p => exact below_many ranked h
  | alt p q =>
    rcases Search.asks_ask h with ⟨rfl, rfl⟩ | ⟨o, hp, h⟩
    · refine ⟨⟨k, ranked.1⟩, List.suffix_rfl, Site.measure_lt_of_weight le_rfl ?_ ?_⟩
      · exact le_max_left _ _
      · simp only [weight]
        omega
    cases o with
    | some m => exact absurd h (Search.not_asks_done _)
    | none =>
      rcases Search.asks_ask h with ⟨rfl, rfl⟩ | ⟨o, hq, h⟩
      · refine ⟨⟨k, ranked.2⟩, List.suffix_rfl, Site.measure_lt_of_weight le_rfl ?_ ?_⟩
        · exact le_max_right _ _
        · simp only [weight]
          omega
      · exact absurd h (Search.not_asks_done _)
  | ahead p =>
    rcases Search.asks_after h with ⟨rfl, rfl⟩ | ⟨ts, rest, hp, h⟩
    · exact ⟨⟨k, ranked⟩, List.suffix_rfl,
        Site.measure_lt_of_weight le_rfl le_rfl (Nat.lt_succ_self _)⟩
    · exact absurd h (Search.not_asks_done _)
  | notAhead p =>
    rcases Search.asks_ask h with ⟨rfl, rfl⟩ | ⟨o, hp, h⟩
    · exact ⟨⟨k, ranked⟩, List.suffix_rfl,
        Site.measure_lt_of_weight le_rfl le_rfl (Nat.lt_succ_self _)⟩
    · cases o <;> exact absurd h (Search.not_asks_done _)
  | rule r =>
    rcases Search.asks_after h with ⟨rfl, rfl⟩ | ⟨ts, rest, hp, h⟩
    · exact ⟨⟨r.rank, r.ranked_body⟩, List.suffix_rfl,
        Site.measure_lt_of_height le_rfl (Nat.lt_succ_of_le r.height_body)⟩
    · exact absurd h (Search.not_asks_done _)

end Pattern

namespace Site

variable {x y : Site} {k : Nat}

/-- What a match leads to, directly or through others, is below it. -/
theorem below_of_calls (h : Relation.TransGen Site.Asks x y) (ranked : x.1.Ranked k) :
    x.Below y := by
  induction h with
  | single h => exact below_of_asks ranked h
  | tail _ h ih =>
    obtain ⟨k', ranked'⟩ := ih.ranked
    exact ih.trans (below_of_asks ranked' h)

/-- No match leads to others without an end. -/
theorem acc_asks (x : Site) {k : Nat} (ranked : x.1.Ranked k) :
    Acc (fun y x : Site => x.Asks y) x := by
  refine .intro x fun y h => ?_
  have hbelow := below_of_asks ranked h
  obtain ⟨k', ranked'⟩ := hbelow.ranked
  exact y.acc_asks ranked'
termination_by x.measure
decreasing_by exact hbelow.lt

/-- From rule to rule, what is left of the text gets shorter, or stays and the rank goes down. -/
theorem Below.rule {r r' : Rule} {cs ds : List Char} (h : Below (rule r, cs) (rule r', ds)) :
    toLex (ds.length, r'.rank) < toLex (cs.length, r.rank) := by
  rcases Prod.Lex.toLex_lt_toLex.1 h.lt with hlt | ⟨heq, hlt⟩
  · exact Prod.Lex.toLex_lt_toLex.2 (.inl hlt)
  · rcases Prod.Lex.toLex_lt_toLex.1 hlt with hlt | ⟨-, hlt⟩
    · exact Prod.Lex.toLex_lt_toLex.2 (.inr ⟨heq, Nat.lt_of_succ_lt_succ hlt⟩)
    · exact absurd hlt (Nat.lt_irrefl _)

end Site

/-- Every rule, matched at any text, ends in exactly one way, with or without success, and that is
the way that the matcher computes. So do all the matches that it leads to, of which there is no
infinite chain : from a rule to every rule that it leads to, the pair of the length of the text and
of the rank goes down, so that no rule comes back to itself at the same place. Wherever a
repetition comes up, be it one that the grammar writes or one between two tokens, what it repeats
consumes. -/
theorem Rule.match_terminates (r : Rule) (cs : List Char) :
    (∀ o, (rule r).Ends cs o ↔ o = (r.run cs).map Match.found) ∧
      (∀ p ds, (rule r).Calls cs p ds → ∃! o, p.Ends ds o) ∧
      Acc (fun y x : Site => x.Asks y) (rule r, cs) ∧
      (∀ r' ds, (rule r).Calls cs (rule r') ds →
        ds <:+ cs ∧ toLex (ds.length, r'.rank) < toLex (cs.length, r.rank)) ∧
      ¬(rule r).Calls cs (rule r) cs ∧
      ∀ gap p ds, (rule r).Calls cs (many gap p) ds →
        ∀ es ts rest, p.Ends es (some (ts, rest)) → rest.length < es.length := by
  have hbelow : ∀ {p ds}, (rule r).Calls cs p ds → Site.Below (rule r, cs) (p, ds) :=
    fun h => Site.below_of_calls h r.ranked_rule
  refine ⟨fun o => ends_iff r.ranked_rule, ?_, Site.acc_asks _ r.ranked_rule, ?_, ?_, ?_⟩
  · intro p ds h
    obtain ⟨k, ranked⟩ := (hbelow h).ranked
    exact ⟨_, (ends_iff ranked).2 rfl, fun o ho => (ends_iff ranked).1 ho⟩
  · intro r' ds h
    exact ⟨(hbelow h).suffix, (hbelow h).rule⟩
  · intro h
    exact lt_irrefl _ (hbelow h).rule
  · intro gap p ds h es ts rest hp
    obtain ⟨k, ranked⟩ := (hbelow h).ranked
    exact hp.leaves_less ranked.2 ranked.1

end Scoped.Grammar
