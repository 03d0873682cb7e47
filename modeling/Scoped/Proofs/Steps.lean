import Scoped.Grammar.Matcher

/-!
# The steps of the matcher

`Pattern.Finds` says what the match of a pattern at a text comes to, with one rule for each step
that the matcher takes : which patterns it matches, where in the text, and what it makes of their
outcomes. There is at most one outcome (`Finds.unique`), and the matcher computes it
(`Pattern.finds_run`). What is to be shown of matches is shown along these rules; the ranks, the
bounds and the parts that a repetition keeps in reverse come up here and nowhere else.
-/

namespace Scoped.Grammar

/-- What a match found, and what is left of the text. -/
abbrev Found := List Tree × List Char

/-- What a match found. -/
def Match.found {c : Bool} {n : Nat} (m : Match c n) : Found := (m.parts, m.rest)

theorem Gap.reverse_tree (cs : List Char) : (Gap.tree cs).reverse = Gap.tree cs := by
  cases cs <;> rfl

/-- What is repeated after a first match : the pattern with the gap before it. -/
def Gap.item : Gap → Pattern → Pattern
  | .none, p => p
  | .layout, p => .seq .layout .empty p

theorem Gap.consumes_item (gap : Gap) {p : Pattern} (h : p.consumes = true) :
    (gap.item p).consumes = true := by
  cases gap <;> exact h

namespace Pattern

/-- The match of the pattern at the text comes to the outcome. -/
inductive Finds : Pattern → List Char → Option Found → Prop
  | empty (cs : List Char) : Finds empty cs (some ([], cs))
  | finish (cs : List Char) : Finds finish cs (if cs.isEmpty then some ([], cs) else none)
  | text (t cs : List Char) :
    Finds (text t) cs ((stripText t cs).map fun rest => ([.terminal t], rest))
  | charEnd (accepts : Char → Bool) : Finds (char accepts) [] none
  | char (accepts : Char → Bool) (c : Char) (cs : List Char) :
    Finds (char accepts) (c :: cs) (if accepts c then some ([.terminal [c]], cs) else none)
  | seqFail {gap : Gap} {p q : Pattern} {cs : List Char} (hp : Finds p cs none) :
    Finds (seq gap p q) cs none
  | seq {gap : Gap} {p q : Pattern} {cs mid : List Char} {ts : List Tree} {o : Option Found}
    (hp : Finds p cs (some (ts, mid))) (hq : Finds q (gap.split mid).2 o) :
    Finds (seq gap p q) cs (o.map fun m => (ts ++ (Gap.tree (gap.split mid).1 ++ m.1), m.2))
  | altLeft {p q : Pattern} {cs : List Char} {m : Found} (hp : Finds p cs (some m)) :
    Finds (alt p q) cs (some m)
  | altRight {p q : Pattern} {cs : List Char} {o : Option Found} (hp : Finds p cs none)
    (hq : Finds q cs o) : Finds (alt p q) cs o
  | manyNone {gap : Gap} {p : Pattern} {cs : List Char} (hp : Finds p cs none) :
    Finds (many gap p) cs (some ([], cs))
  /-- What is repeated consumes. -/
  | many {gap : Gap} {p : Pattern} {cs mid rest : List Char} {ts us : List Tree}
    (hc : p.consumes = true) (hp : Finds p cs (some (ts, mid)))
    (hmany : Finds (many .none (gap.item p)) mid (some (us, rest))) :
    Finds (many gap p) cs (some (ts ++ us, rest))
  | ahead {p : Pattern} {cs : List Char} {o : Option Found} (hp : Finds p cs o) :
    Finds (ahead p) cs (o.map fun _ => ([], cs))
  | notAhead {p : Pattern} {cs : List Char} {o : Option Found} (hp : Finds p cs o) :
    Finds (notAhead p) cs (if o.isSome then none else some ([], cs))
  | rule {r : Rule} {cs : List Char} {o : Option Found} (h : Finds r.body cs o) :
    Finds (rule r) cs (o.map fun m => (r.wrap m.1, m.2))

variable {gap : Gap} {p q : Pattern} {k : Nat} {cs : List Char}

/-- A match comes to one outcome at most. -/
theorem Finds.unique {o o' : Option Found} (h : p.Finds cs o) (h' : p.Finds cs o') : o = o' := by
  induction h generalizing o' with
  | empty | finish | text | charEnd | char =>
    cases h'
    rfl
  | seqFail _ ih =>
    cases h' with
    | seqFail => rfl
    | seq hp => cases ih hp
  | seq _ _ ihp ihq =>
    cases h' with
    | seqFail hp => cases ihp hp
    | seq hp hq =>
      cases ihp hp
      rw [ihq hq]
  | altLeft _ ih =>
    cases h' with
    | altLeft hp => exact ih hp
    | altRight hp => cases ih hp
  | altRight _ _ ihp ihq =>
    cases h' with
    | altLeft hp => cases ihp hp
    | altRight _ hq => exact ihq hq
  | manyNone _ ih =>
    cases h' with
    | manyNone => rfl
    | many _ hp => cases ih hp
  | many _ _ _ ihp ihmany =>
    cases h' with
    | manyNone hp => cases ihp hp
    | many _ hp hmany =>
      cases ihp hp
      cases ihmany hmany
      rfl
  | ahead _ ih | notAhead _ ih =>
    cases h' with
    | _ hp => rw [ih hp]
  | rule _ ih =>
    cases h' with
    | rule h => rw [ih h]

theorem Finds.of_rule {r : Rule} {ts : List Tree} {rest : List Char}
    (h : (Pattern.rule r).Finds cs (some (ts, rest))) :
    ∃ parts, r.body.Finds cs (some (parts, rest)) ∧ ts = r.wrap parts := by
  generalize ho : some (ts, rest) = o at h
  cases h with
  | rule h =>
    obtain ⟨m, rfl, hm⟩ := Option.map_eq_some_iff.1 ho.symm
    cases hm
    exact ⟨_, h, rfl⟩

/-! ## The matcher takes these steps -/

/-- A match with the gap before it. -/
theorem Finds.item {o : Option Found} (hp : p.Finds (gap.split cs).2 o) :
    (gap.item p).Finds cs (o.map fun m => (Gap.tree (gap.split cs).1 ++ m.1, m.2)) := by
  cases gap with
  | none =>
    cases o with
    | none => exact hp
    | some m => exact hp
  | layout => exact .seq (.empty cs) hp

mutual

/-- The matcher computes what a match comes to. The recursion is that of the matcher. -/
theorem finds_run : ∀ (k : Nat) (p : Pattern) (ranked : p.Ranked k) (cs : List Char),
    p.Finds cs ((p.run k ranked cs).map Match.found)
  | k, .empty, ranked, cs => by
    rw [run]
    exact .empty cs
  | k, .finish, ranked, cs => by
    have hfinds := Finds.finish cs
    rw [run]
    split at hfinds
    · next hcs =>
      rw [if_pos hcs]
      exact hfinds
    · next hcs =>
      rw [if_neg hcs]
      exact hfinds
  | k, .text t, ranked, cs => by
    have hfinds := Finds.text t cs
    rw [run]
    split
    · next rest hrest =>
      rw [hrest] at hfinds
      exact hfinds
    · next hnone =>
      rw [hnone] at hfinds
      exact hfinds
  | k, .char accepts, ranked, [] => by
    rw [run]
    exact .charEnd accepts
  | k, .char accepts, ranked, c :: cs => by
    have hfinds := Finds.char accepts c cs
    simp only [run]
    split at hfinds
    · next hc =>
      rw [if_pos hc]
      exact hfinds
    · next hc =>
      rw [if_neg hc]
      exact hfinds
  | k, .seq gap p q, ranked, cs => by
    have hp := finds_run k p ranked.1 cs
    rw [run]
    cases hrun : p.run k ranked.1 cs with
    | none =>
      rw [hrun] at hp
      exact .seqFail hp
    | some m =>
      rw [hrun] at hp
      have hseq : (Pattern.seq gap p q).Finds cs _ :=
        .seq hp (finds_run _ q ranked.2 (gap.split m.rest).2)
      cases hrun' : q.run (bif p.consumes then Rule.topRank else k) ranked.2
          (gap.split m.rest).2 with
      | none =>
        rw [hrun'] at hseq
        simp only [hrun']
        exact hseq
      | some m' =>
        rw [hrun'] at hseq
        simp only [hrun']
        exact hseq
  | k, .alt p q, ranked, cs => by
    have hp := finds_run k p ranked.1 cs
    have hq := finds_run k q ranked.2 cs
    rw [run]
    cases hrun : p.run k ranked.1 cs with
    | some m =>
      rw [hrun] at hp
      exact .altLeft hp
    | none =>
      rw [hrun] at hp
      cases hrun' : q.run k ranked.2 cs with
      | none =>
        rw [hrun'] at hq
        exact .altRight hp hq
      | some m =>
        rw [hrun'] at hq
        exact .altRight hp hq
  | k, .many gap p, ranked, cs => by
    have hp := finds_run k p ranked.2 cs
    rw [run]
    cases hrun : p.run k ranked.2 cs with
    | none =>
      rw [hrun] at hp
      exact .manyNone hp
    | some m =>
      rw [hrun] at hp
      have hlt : m.rest.length < cs.length := m.length_rest_of ranked.1
      obtain ⟨us, hmany, hparts⟩ := finds_runMore gap k p ranked.1 ranked.2 m.parts.reverse m.rest
        cs.length (Nat.le_of_lt hlt)
      have hfinds : (Pattern.many gap p).Finds cs (some (m.parts ++ us, _)) :=
        .many ranked.1 hp hmany
      rw [List.reverse_reverse] at hparts
      rw [← hparts] at hfinds
      exact hfinds
  | k, .ahead p, ranked, cs => by
    have hp := Finds.ahead (finds_run k p ranked cs)
    rw [run]
    cases hrun : p.run k ranked cs with
    | none =>
      rw [hrun] at hp
      exact hp
    | some m =>
      rw [hrun] at hp
      exact hp
  | k, .notAhead p, ranked, cs => by
    have hp := Finds.notAhead (finds_run k p ranked cs)
    rw [run]
    cases hrun : p.run k ranked cs with
    | none =>
      rw [hrun] at hp
      exact hp
    | some m =>
      rw [hrun] at hp
      exact hp
  | k, .rule r, ranked, cs => by
    have hbody := Finds.rule (finds_run r.rank r.body r.ranked_body cs)
    rw [run]
    cases hrun : r.body.run r.rank r.ranked_body cs with
    | none =>
      rw [hrun] at hbody
      exact hbody
    | some m =>
      rw [hrun] at hbody
      exact hbody
termination_by k p _ cs => (cs.length, k, 2 * p.size)
decreasing_by
  · exact .right _ (.right _ (by simp only [size]; omega))
  · exact lex_after m.length_rest (gap.length_rest_le m.rest) (by simp only [size]; omega)
  · exact .right _ (.right _ (by simp only [size]; omega))
  · exact .right _ (.right _ (by simp only [size]; omega))
  · exact .right _ (.right _ (by simp only [size]; omega))
  · exact .left _ _ hlt
  · exact .right _ (.right _ (by simp only [size]; omega))
  · exact .right _ (.right _ (by simp only [size]; omega))
  · exact .right _ (.left _ _ ranked)

/-- The other matches of a repetition are found after those that are `done`. -/
theorem finds_runMore (gap : Gap) (k : Nat) (p : Pattern) (hc : p.consumes = true)
    (ranked : p.Ranked k) (done : List Tree) (input : List Char) (limit : Nat)
    (hle : input.length ≤ limit) : ∃ us, (many .none (gap.item p)).Finds input
        (some (us, (p.runMore gap k hc ranked done input limit hle).rest)) ∧
      (p.runMore gap k hc ranked done input limit hle).parts = done.reverse ++ us := by
  have hitem := (finds_run k p ranked (gap.split input).2).item
  rw [runMore]
  cases hrun : p.run k ranked (gap.split input).2 with
  | none =>
    rw [hrun] at hitem
    exact ⟨[], .manyNone hitem, by simp⟩
  | some m =>
    rw [hrun] at hitem
    have hlt : m.rest.length < input.length :=
      Nat.lt_of_lt_of_le (m.length_rest_of hc) (gap.length_rest_le input)
    obtain ⟨us, hmany, hparts⟩ := finds_runMore gap k p hc ranked
      (m.parts.reverse ++ (Gap.tree (gap.split input).1 ++ done)) m.rest limit
      (Nat.le_trans (Nat.le_of_lt hlt) hle)
    exact ⟨_, .many (gap.consumes_item hc) hitem hmany,
      by simp [hparts, Match.found, Gap.reverse_tree]⟩
termination_by (input.length, k, 2 * p.size + 1)
decreasing_by
  · rcases Nat.lt_or_eq_of_le (gap.length_rest_le input) with h | h
    · exact .left _ _ h
    · rw [h]; exact .right _ (.right _ (Nat.lt_succ_self _))
  · exact .left _ _ hlt

end

/-- What a match leaves is bounded. -/
theorem Finds.length {ts : List Tree} {rest : List Char} (h : p.Finds cs (some (ts, rest)))
    (ranked : p.Ranked k) : rest.length + p.consumes.toNat ≤ cs.length := by
  obtain ⟨m, -, hm⟩ := Option.map_eq_some_iff.1 ((finds_run k p ranked cs).unique h)
  cases hm
  exact m.length_rest

end Pattern

/-- The matcher computes what the match of a rule comes to. -/
theorem Rule.finds_run (r : Rule) (cs : List Char) :
    (Pattern.rule r).Finds cs ((r.run cs).map Match.found) :=
  Pattern.finds_run (r.rank + 1) (.rule r) r.ranked_rule cs

theorem Rule.run_of_finds {r : Rule} {cs rest : List Char} {ts : List Tree}
    (h : (Pattern.rule r).Finds cs (some (ts, rest))) :
    ∃ m, r.run cs = some m ∧ m.parts = ts ∧ m.rest = rest := by
  obtain ⟨m, hrun, hm⟩ := Option.map_eq_some_iff.1 ((r.finds_run cs).unique h)
  cases hm
  exact ⟨m, hrun, rfl, rfl⟩

end Scoped.Grammar
