import Scoped.Proofs.Phrases

/-!
# Derivations

A match is a forest that the grammar derives. `Pattern.Derives` says so without saying how the
forest is found : choices are free, and what lookaheads ask for is left out. The number bounds
how deep rules stand inside each other, for inductions over it. `Pattern.Matches` keeps the text as
well, and `Rule.matches_run` says that what the matcher finds is matched.

The equations of `Derives` take a forest apart along the pattern, so that a proof about trees
never looks at the matcher.
-/

namespace Scoped.Grammar

open Layout (skip)
open Scoped.Grammar.Tree (textAll)

/-- Blanks and comments, one after the other. A comment goes on to the end of its line. -/
inductive Layout.Stretch : List Char → Prop
  | nil : Stretch []
  | blank {c : Char} {cs : List Char} (hc : isBlank c = true) (h : Stretch cs) : Stretch (c :: cs)
  | comment {body cs : List Char} (hbody : '\n' ∉ body) (hcs : ∀ c ∈ cs.head?, c = '\n')
    (h : Stretch cs) : Stretch ('/' :: '/' :: (body ++ cs))

/-- The gap may hold this text. -/
def Gap.Admits : Gap → List Char → Prop
  | .none, cs => cs = []
  | .layout, cs => Layout.Stretch cs

namespace Rule

theorem wrap_node (r : Rule) (hr : r.kind = .normal ∨ r.kind = .compound) (ts : List Tree) :
    r.wrap ts = [.node r ts] := by
  unfold wrap
  rcases hr with hr | hr <;> rw [hr]

theorem wrap_silent (r : Rule) (hr : r.kind = .silent) (ts : List Tree) : r.wrap ts = ts := by
  rw [wrap, hr]

theorem wrap_atomic (r : Rule) (hr : r.kind = .atomic) (ts : List Tree) :
    r.wrap ts = [.node r [.terminal (textAll ts)]] := by
  rw [wrap, hr]

end Rule

/-- The pattern derives the forest, with at most so many rules inside each other. -/
inductive Pattern.Derives : Nat → Pattern → List Tree → Prop
  | empty {n : Nat} : Derives n .empty []
  | finish {n : Nat} : Derives n .finish []
  | text {n : Nat} (t : List Char) : Derives n (.text t) [.terminal t]
  | char {n : Nat} {accepts : Char → Bool} {c : Char} (hc : accepts c = true) :
    Derives n (.char accepts) [.terminal [c]]
  | seq {n : Nat} {gap : Gap} {p q : Pattern} {us vs : List Tree} {cs : List Char}
    (hcs : gap.Admits cs) (hp : Derives n p us) (hq : Derives n q vs) :
    Derives n (.seq gap p q) (us ++ (Gap.tree cs ++ vs))
  | altLeft {n : Nat} {p q : Pattern} {ts : List Tree} (hp : Derives n p ts) :
    Derives n (.alt p q) ts
  | altRight {n : Nat} {p q : Pattern} {ts : List Tree} (hq : Derives n q ts) :
    Derives n (.alt p q) ts
  | manyNone {n : Nat} {gap : Gap} {p : Pattern} : Derives n (.many gap p) []
  | manyOne {n : Nat} {gap : Gap} {p : Pattern} {ts : List Tree} (hp : Derives n p ts) :
    Derives n (.many gap p) ts
  | manyMore {n : Nat} {gap : Gap} {p : Pattern} {us vs : List Tree} {cs : List Char}
    (hmany : Derives n (.many gap p) us) (hus : us ≠ []) (hcs : gap.Admits cs)
    (hp : Derives n p vs) : Derives n (.many gap p) (us ++ (Gap.tree cs ++ vs))
  | ahead {n : Nat} {p : Pattern} : Derives n (.ahead p) []
  | notAhead {n : Nat} {p : Pattern} : Derives n (.notAhead p) []
  | rule {n : Nat} {r : Rule} {ts : List Tree} (h : Derives n r.body ts) :
    Derives (n + 1) (.rule r) (r.wrap ts)

namespace Pattern

variable {n m k : Nat} {gap : Gap} {p q : Pattern} {r : Rule} {ts us vs : List Tree}

theorem Derives.mono (h : p.Derives n ts) (hnm : n ≤ m) : p.Derives m ts := by
  induction h generalizing m with
  | empty => exact .empty
  | finish => exact .finish
  | text t => exact .text t
  | char hc => exact .char hc
  | seq hcs _ _ ihp ihq => exact .seq hcs (ihp hnm) (ihq hnm)
  | altLeft _ ih => exact .altLeft (ih hnm)
  | altRight _ ih => exact .altRight (ih hnm)
  | manyNone => exact .manyNone
  | manyOne _ ih => exact .manyOne (ih hnm)
  | manyMore _ hus hcs _ ihm ihp => exact .manyMore (ihm hnm) hus hcs (ihp hnm)
  | ahead => exact .ahead
  | notAhead => exact .notAhead
  | rule _ ih =>
    obtain ⟨m', rfl⟩ := Nat.exists_eq_add_of_le hnm
    rw [Nat.add_right_comm]
    exact .rule (ih (Nat.le_add_right ..))

theorem derives_text {t : List Char} : (text t).Derives n ts ↔ ts = [.terminal t] := by
  constructor
  · intro h
    cases h
    rfl
  · rintro rfl
    exact .text t

theorem derives_notAhead : (notAhead p).Derives n ts ↔ ts = [] := by
  constructor
  · intro h
    cases h
    rfl
  · rintro rfl
    exact .notAhead

theorem derives_seq : (seq gap p q).Derives n ts ↔ ∃ us cs vs,
    p.Derives n us ∧ gap.Admits cs ∧ q.Derives n vs ∧ ts = us ++ (Gap.tree cs ++ vs) := by
  constructor
  · intro h
    cases h with
    | seq hcs hp hq => exact ⟨_, _, _, hp, hcs, hq, rfl⟩
  · rintro ⟨us, cs, vs, hp, hcs, hq, rfl⟩
    exact .seq hcs hp hq

theorem derives_alt : (alt p q).Derives n ts ↔ p.Derives n ts ∨ q.Derives n ts := by
  constructor
  · intro h
    cases h with
    | altLeft hp => exact .inl hp
    | altRight hq => exact .inr hq
  · rintro (hp | hq)
    · exact .altLeft hp
    · exact .altRight hq

theorem derives_rule :
    (rule r).Derives (n + 1) ts ↔ ∃ us, r.body.Derives n us ∧ ts = r.wrap us := by
  constructor
  · intro h
    cases h with
    | rule h => exact ⟨_, h, rfl⟩
  · rintro ⟨us, h, rfl⟩
    exact .rule h

/-- The repeated forests, in order, each after a gap. -/
theorem Derives.items (h : (many gap p).Derives n ts) : ∃ items : List (List Char × List Tree),
    (∀ item ∈ items, p.Derives n item.2) ∧
      ts = items.flatMap fun item => Gap.tree item.1 ++ item.2 := by
  generalize hq : many gap p = q at h
  induction h with
  | manyNone => exact ⟨[], by simp, rfl⟩
  | manyOne hp =>
    cases hq
    exact ⟨[([], _)], by simpa using hp, by simp [Gap.tree]⟩
  | @manyMore _ _ _ us vs cs _ _ _ hp ih _ =>
    cases hq
    obtain ⟨items, hitems, rfl⟩ := ih rfl
    refine ⟨items ++ [(cs, vs)], ?_, by simp⟩
    simp only [List.mem_append, List.mem_singleton]
    rintro item (hitem | rfl)
    · exact hitems item hitem
    · exact hp
  | _ => cases hq

end Pattern

/-! ## The matcher derives -/

/-- What is skipped is a stretch, and in a comment the rest of its line and a stretch. -/
theorem Layout.stretch_of_after {b : Bool} {cs : List Char} (h : after b cs = []) :
    if b then ∃ body rest, cs = body ++ rest ∧ '\n' ∉ body ∧ (∀ c ∈ rest.head?, c = '\n') ∧
      Stretch rest else Stretch cs := by
  fun_induction after b cs with
  | case1 b =>
    cases b with
    | false => exact .nil
    | true => exact ⟨[], [], rfl, by simp, by simp, .nil⟩
  | case2 c cs ih =>
    by_cases hc : c = '\n'
    · subst hc
      exact ⟨[], _, rfl, by simp, by simp, .blank (by decide) (ih h)⟩
    · have ih := ih h
      rw [if_pos (by simpa using hc)] at ih
      obtain ⟨body, rest, rfl, hbody, hrest⟩ := ih
      exact ⟨c :: body, rest, rfl, by simp [hbody, Ne.symm hc], hrest⟩
  | case3 cs ih =>
    obtain ⟨body, rest, rfl, hbody, hrest, hstretch⟩ := ih h
    exact .comment hbody hrest hstretch
  | case4 c cs _ hc ih => exact .blank hc (ih h)
  | case5 => cases h

theorem Layout.skip_split (cs : List Char) : skip (Layout.split cs).1 = [] := by
  have hrest : (Layout.split cs).2 = skip cs := scan_after [] false cs
  have happend := split_append cs
  by_cases hnil : skip cs = []
  · rw [hrest, hnil, List.append_nil] at happend
    rw [happend, hnil]
  · have hafter : after false ((Layout.split cs).1 ++ skip cs) = skip cs := by
      rw [← hrest, happend, hrest]
      rfl
    have hstate := state?_of_after_append hafter hnil
    have hskip := after_append_of_state? hstate []
    rwa [List.append_nil] at hskip

theorem Gap.admits_split (gap : Gap) (cs : List Char) : gap.Admits (gap.split cs).1 := by
  cases gap with
  | none => rfl
  | layout => exact Layout.stretch_of_after (b := false) (Layout.skip_split cs)

theorem Gap.split_append (gap : Gap) (cs : List Char) :
    (gap.split cs).1 ++ (gap.split cs).2 = cs := by
  cases gap with
  | none => rfl
  | layout => exact Layout.split_append cs

@[simp]
theorem Tree.textAll_gap (cs : List Char) : textAll (Gap.tree cs) = cs := by
  cases cs with
  | nil => rfl
  | cons c cs => simp [Gap.tree]

theorem Rule.textAll_wrap (r : Rule) (ts : List Tree) : textAll (r.wrap ts) = textAll ts := by
  unfold Rule.wrap
  split <;> simp

namespace Pattern

/-- The pattern matches the forest at the start of a text, and leaves the rest. Like `Derives` it
leaves open which choice is taken; a rule matches what the matcher finds for it, and what stands
behind a positive lookahead matches. -/
inductive Matches : Pattern → List Char → List Tree → List Char → Prop
  | empty {cs : List Char} : Matches empty cs [] cs
  | finish : Matches finish [] [] []
  | text (t : List Char) {rest : List Char} : Matches (text t) (t ++ rest) [.terminal t] rest
  | char {accepts : Char → Bool} {c : Char} {rest : List Char} (hc : accepts c = true) :
    Matches (char accepts) (c :: rest) [.terminal [c]] rest
  | seq {gap : Gap} {p q : Pattern} {us vs : List Tree} {cs mid rest : List Char}
    (hp : Matches p cs us mid) (hq : Matches q (gap.split mid).2 vs rest) :
    Matches (seq gap p q) cs (us ++ (Gap.tree (gap.split mid).1 ++ vs)) rest
  | altLeft {p q : Pattern} {ts : List Tree} {cs rest : List Char} (hp : Matches p cs ts rest) :
    Matches (alt p q) cs ts rest
  | altRight {p q : Pattern} {ts : List Tree} {cs rest : List Char} (hq : Matches q cs ts rest) :
    Matches (alt p q) cs ts rest
  | manyNone {gap : Gap} {p : Pattern} {cs : List Char} : Matches (many gap p) cs [] cs
  | manyOne {gap : Gap} {p : Pattern} {ts : List Tree} {cs rest : List Char}
    (hp : Matches p cs ts rest) : Matches (many gap p) cs ts rest
  | manyMore {gap : Gap} {p : Pattern} {us vs : List Tree} {cs mid rest : List Char}
    (hmany : Matches (many gap p) cs us mid) (hus : us ≠ [])
    (hp : Matches p (gap.split mid).2 vs rest) :
    Matches (many gap p) cs (us ++ (Gap.tree (gap.split mid).1 ++ vs)) rest
  | ahead {p : Pattern} {cs : List Char} (hp : p.parse cs ≠ none) : Matches (ahead p) cs [] cs
  | notAhead {p : Pattern} {cs : List Char} : Matches (notAhead p) cs [] cs
  | rule {r : Rule} {ts : List Tree} {cs rest : List Char}
    (hparse : r.parse cs = some (Tree.yieldAll (r.wrap ts), rest))
    (h : Matches r.body cs ts rest) : Matches (rule r) cs (r.wrap ts) rest

variable {N K k : Nat} {gap : Gap} {p q : Pattern} {cs input rest : List Char}
  {ts parts : List Tree}

/-- The forest and the rest make up the text. -/
theorem Matches.text_append (h : p.Matches cs ts rest) : textAll ts ++ rest = cs := by
  induction h with
  | empty | finish | manyNone | ahead | notAhead => rfl
  | text | char => simp
  | @seq gap _ _ _ _ _ mid _ _ _ ihp ihq | @manyMore gap _ _ _ _ mid _ _ _ _ ihp ihq =>
    rw [Tree.textAll_append, Tree.textAll_append, Tree.textAll_gap, List.append_assoc,
      List.append_assoc, ihq, gap.split_append, ihp]
  | altLeft _ ih | altRight _ ih | manyOne _ ih => exact ih
  | @rule r _ _ _ _ _ ih => rw [r.textAll_wrap, ih]

theorem Matches.of_rule {r : Rule} (h : (Pattern.rule r).Matches cs ts rest) :
    ∃ parts, r.body.Matches cs parts rest ∧ ts = r.wrap parts := by
  cases h with
  | rule _ h => exact ⟨_, h, rfl⟩

/-- What is matched is derived. -/
theorem Matches.derives (h : p.Matches cs ts rest) : ∃ n, p.Derives n ts := by
  induction h with
  | empty => exact ⟨0, .empty⟩
  | finish => exact ⟨0, .finish⟩
  | text t => exact ⟨0, .text t⟩
  | char hc => exact ⟨0, .char hc⟩
  | @seq gap _ _ _ _ _ mid _ _ _ ihp ihq =>
    obtain ⟨n₁, hp⟩ := ihp
    obtain ⟨n₂, hq⟩ := ihq
    exact ⟨n₁ + n₂, .seq (gap.admits_split mid) (hp.mono (Nat.le_add_right ..))
      (hq.mono (Nat.le_add_left ..))⟩
  | altLeft _ ih =>
    obtain ⟨n, h⟩ := ih
    exact ⟨n, .altLeft h⟩
  | altRight _ ih =>
    obtain ⟨n, h⟩ := ih
    exact ⟨n, .altRight h⟩
  | manyNone => exact ⟨0, .manyNone⟩
  | manyOne _ ih =>
    obtain ⟨n, h⟩ := ih
    exact ⟨n, .manyOne h⟩
  | @manyMore gap _ _ _ _ mid _ _ hus _ ihmany ihp =>
    obtain ⟨n₁, hmany⟩ := ihmany
    obtain ⟨n₂, hp⟩ := ihp
    exact ⟨n₁ + n₂, .manyMore (hmany.mono (Nat.le_add_right ..)) hus (gap.admits_split mid)
      (hp.mono (Nat.le_add_left ..))⟩
  | ahead => exact ⟨0, .ahead⟩
  | notAhead => exact ⟨0, .notAhead⟩
  | rule _ _ ih =>
    obtain ⟨n, h⟩ := ih
    exact ⟨n + 1, .rule h⟩

theorem Matches.parts_ne_nil (h : p.Matches input parts rest) (hlt : rest.length < input.length) :
    parts ≠ [] := by
  rintro rfl
  have hlength := congrArg List.length h.text_append
  rw [Tree.textAll_nil, List.nil_append] at hlength
  omega

/-- One more match of a repetition, after a gap. -/
theorem Matches.item {us vs : List Tree} {mid : List Char}
    (hmany : (many gap p).Matches cs us mid) (hus : us ≠ [])
    (hitem : (gap.item p).Matches mid vs rest) : (many gap p).Matches cs (us ++ vs) rest := by
  cases gap with
  | none => exact hmany.manyMore hus hitem
  | layout =>
    cases hitem with
    | seq hempty hp =>
      cases hempty
      exact hmany.manyMore hus hp

/-- The other matches of a repetition. -/
theorem Matches.items {us vs : List Tree} {mid : List Char}
    (hmany : (many gap p).Matches cs us mid) (hus : us ≠ [])
    (hitems : (many .none (gap.item p)).Matches mid vs rest) :
    (many gap p).Matches cs (us ++ vs) rest := by
  generalize hq : many .none (gap.item p) = q at hitems
  induction hitems with
  | manyNone =>
    rw [List.append_nil]
    exact hmany
  | manyOne hitem =>
    cases hq
    exact hmany.item hus hitem
  | manyMore _ _ hitem ih =>
    cases hq
    have hmore := (ih hmany rfl).item (by simp [hus]) hitem
    rw [List.append_assoc] at hmore
    exact hmore
  | _ => cases hq

/-- What the matcher finds is matched. -/
theorem Finds.matches {o : Option Found} (h : p.Finds cs o) :
    ∀ {ts : List Tree} {rest : List Char}, o = some (ts, rest) → p.Matches cs ts rest := by
  induction h with
  | empty =>
    rintro _ _ ⟨⟩
    exact .empty
  | finish cs =>
    intro ts rest heq
    split at heq
    · next hnil =>
      cases heq
      obtain rfl := List.isEmpty_iff.1 hnil
      exact .finish
    · cases heq
  | text t cs =>
    intro ts rest heq
    obtain ⟨mid, hstrip, heq⟩ := Option.map_eq_some_iff.1 heq
    cases heq
    obtain rfl := stripText_eq_some_iff.1 hstrip
    exact .text t
  | charEnd => rintro _ _ ⟨⟩
  | char accepts c cs =>
    intro ts rest heq
    split at heq
    · next hc =>
      cases heq
      exact .char hc
    · cases heq
  | seqFail => rintro _ _ ⟨⟩
  | seq _ _ ihp ihq =>
    intro ts rest heq
    obtain ⟨m, hm, heq⟩ := Option.map_eq_some_iff.1 heq
    cases heq
    exact .seq (ihp rfl) (ihq hm)
  | altLeft _ ih =>
    intro ts rest heq
    exact .altLeft (ih heq)
  | altRight _ _ _ ihq =>
    intro ts rest heq
    exact .altRight (ihq heq)
  | manyNone =>
    rintro _ _ ⟨⟩
    exact .manyNone
  | many hc hp _ ihp ihmany =>
    rintro _ _ ⟨⟩
    have hlt := parse_length hp.parse_eq
    rw [hc] at hlt
    exact (Matches.manyOne (ihp rfl)).items ((ihp rfl).parts_ne_nil hlt) (ihmany rfl)
  | ahead hp =>
    intro ts rest heq
    obtain ⟨m, hm, heq⟩ := Option.map_eq_some_iff.1 heq
    cases heq
    exact .ahead (by rw [hp.parse_eq, hm]; exact Option.some_ne_none _)
  | notAhead =>
    intro ts rest heq
    split at heq <;> cases heq
    exact .notAhead
  | rule h ih =>
    intro ts rest heq
    have hparse := (Finds.rule h).parse_eq
    obtain ⟨m, hm, heq⟩ := Option.map_eq_some_iff.1 heq
    cases heq
    rw [hm] at hparse
    exact .rule hparse (ih hm)

end Pattern

/-- What the matcher finds for a rule is matched. -/
theorem Rule.matches_run {r : Rule} {input : List Char} {m : Match r.consumes input.length}
    (h : r.run input = some m) : (Pattern.rule r).Matches input m.parts m.rest := by
  have hfinds := r.finds_run input
  rw [h] at hfinds
  exact hfinds.matches rfl

end Scoped.Grammar
