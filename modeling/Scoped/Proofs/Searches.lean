import Mathlib.Data.List.DropRight
import Scoped.Proofs.Derivations

/-!
# The recursion of the matcher

`Pattern.search` takes the recursion of the matcher apart : it says which patterns a match of a
pattern asks for, where in the text, and what it makes of their outcomes, but does not match them.
A rule asks for its body, a repetition goes on with itself for as long as there are matches, and
what stands between two parts is asked for like everything else : `Gap.pattern` is the layout as
the grammar writes it, with the rules for blanks and comments. Neither ranks nor bounds come up.

`Pattern.Ends` carries searches out with nothing to bound it : a match ends in a way if those that
it asks for end, each in some way. A match that would go on for ever ends in no way at all.
`Pattern.ends_iff` says that the patterns of the grammar end at every text, and only as the matcher
says.
-/

namespace Scoped.Grammar

open Layout (skip)
open Scoped.Grammar.Tree (textAll)

/-- What the match of a pattern comes to : an outcome, or the match of a pattern at some text and
what to do next with its outcome. -/
inductive Search where
  | done (o : Option Found)
  | ask (p : Pattern) (cs : List Char) (next : Option Found → Search)

/-- A search that fails where a pattern does, and otherwise goes on. -/
def Search.after (p : Pattern) (cs : List Char) (next : List Tree → List Char → Search) : Search :=
  .ask p cs fun
    | some (ts, rest) => next ts rest
    | none => .done none

/-- Blanks, and comments with blanks after them. -/
def Pattern.spacing : Pattern :=
  .word [.many .none (.rule .whitespace)]
    (.many .none (.word [.rule .comment] (.many .none (.rule .whitespace))))

/-- What may stand in a gap. -/
def Gap.pattern : Gap → Pattern
  | .none => .empty
  | .layout => .spacing

namespace Pattern

/-- What the match of a pattern at a text asks for. -/
def search : Pattern → List Char → Search
  | empty, cs => .done (some ([], cs))
  | finish, cs => .done (if cs.isEmpty then some ([], cs) else none)
  | text t, cs => .done ((stripText t cs).map fun rest => ([.terminal t], rest))
  | char _, [] => .done none
  | char accepts, c :: cs => .done (if accepts c then some ([.terminal [c]], cs) else none)
  | seq gap p q, cs => .after p cs fun ts mid => .after gap.pattern mid fun ls mid' =>
    .after q mid' fun us rest => .done (some (ts ++ (Gap.tree (textAll ls) ++ us), rest))
  | alt p q, cs => .ask p cs fun
    | some m => .done (some m)
    | none => .ask q cs .done
  | many gap p, cs => .ask p cs fun
    | some (ts, rest) => .after (many .none (gap.item p)) rest fun us rest' =>
      .done (some (ts ++ us, rest'))
    | none => .done (some ([], cs))
  | ahead p, cs => .after p cs fun _ _ => .done (some ([], cs))
  | notAhead p, cs => .ask p cs fun
    | some _ => .done none
    | none => .done (some ([], cs))
  | rule r, cs => .after r.body cs fun ts rest => .done (some (r.wrap ts, rest))

end Pattern

/-- Carrying a search out. -/
inductive Search.Ends : Search → Option Found → Prop
  | done (o : Option Found) : Ends (.done o) o
  | ask {p : Pattern} {cs : List Char} {next : Option Found → Search} {o o' : Option Found} :
    Ends (p.search cs) o → Ends (next o) o' → Ends (.ask p cs next) o'

/-- The match of a pattern at a text ends so. -/
def Pattern.Ends (p : Pattern) (cs : List Char) (o : Option Found) : Prop := (p.search cs).Ends o

/-- A search ends in one way at most. -/
theorem Search.Ends.unique {s : Search} {o o' : Option Found} (h : s.Ends o) (h' : s.Ends o') :
    o = o' := by
  induction h generalizing o' with
  | done o =>
    cases h'
    rfl
  | ask _ _ ihp ihnext =>
    cases h' with
    | ask hp hnext =>
      obtain rfl := ihp hp
      exact ihnext hnext

namespace Pattern

variable {gap : Gap} {p q : Pattern} {cs mid rest : List Char} {ts us : List Tree}

/-! ## Layout -/

theorem ends_text (t : List Char) : (text t).Ends (t ++ cs) (some ([.terminal t], cs)) := by
  have hends : (text t).Ends (t ++ cs) ((stripText t (t ++ cs)).map _) := .done _
  rwa [stripText_append] at hends

theorem ends_text_none {t : List Char} (h : ∀ rest, cs ≠ t ++ rest) : (text t).Ends cs none := by
  have hstrip : stripText t cs = none := by
    rw [Option.eq_none_iff_forall_ne_some]
    intro rest hrest
    exact h rest (stripText_eq_some_iff.1 hrest)
  have hends : (text t).Ends cs ((stripText t cs).map _) := .done _
  rwa [hstrip] at hends

theorem ends_rule {r : Rule} (h : r.body.Ends cs (some (ts, rest))) :
    (rule r).Ends cs (some (r.wrap ts, rest)) :=
  .ask h (.done _)

theorem ends_rule_none {r : Rule} (h : r.body.Ends cs none) : (rule r).Ends cs none :=
  .ask h (.done _)

/-- The first match of a repetition and the others. -/
theorem ends_many (gap : Gap) (hp : p.Ends cs (some (ts, mid)))
    (hmany : (many .none (gap.item p)).Ends mid (some (us, rest))) :
    (many gap p).Ends cs (some (ts ++ us, rest)) :=
  .ask hp (.ask hmany (.done _))

theorem ends_many_none (hp : p.Ends cs none) : (many gap p).Ends cs (some ([], cs)) :=
  .ask hp (.done _)

/-- Two parts with nothing between them. -/
theorem ends_tight {o : Option Found} (hp : p.Ends cs (some (ts, mid))) (hq : q.Ends mid o) :
    (seq .none p q).Ends cs (o.map fun m => (ts ++ m.1, m.2)) := by
  refine .ask hp (.ask (.done _) (.ask hq ?_))
  cases o with
  | none => exact .done _
  | some m => exact .done _

/-- The pattern matches one character of a class. -/
def IsClass (p : Pattern) (f : Char → Bool) : Prop :=
  p.Ends [] none ∧ ∀ c cs, p.Ends (c :: cs) (if f c then some ([.terminal [c]], cs) else none)

theorem isClass_char (f : Char → Bool) : IsClass (char f) f := ⟨.done _, fun _ _ => .done _⟩

theorem isClass_whitespace : IsClass (rule .whitespace) isBlank := by
  refine ⟨ends_rule_none (.done _), fun c cs => ?_⟩
  have hbody := (isClass_char isBlank).2 c cs
  by_cases hc : isBlank c = true
  · rw [if_pos hc] at hbody ⊢
    exact ends_rule hbody
  · rw [if_neg hc] at hbody ⊢
    exact ends_rule_none hbody

/-- A character of a comment. -/
theorem isClass_comment :
    IsClass (word [notAhead (text ['\n'])] (char fun _ => true)) (· != '\n') := by
  refine ⟨.ask (.ask (.done _) (.done _)) (.ask (.done _) (.ask (.done _) (.done _))), ?_⟩
  intro c cs
  by_cases hc : c = '\n'
  · subst hc
    exact .ask (.ask (.done _) (.done _)) (.done _)
  · have htext : (text ['\n']).Ends (c :: cs) none :=
      ends_text_none fun rest heq => hc (List.cons.inj heq).1
    have hahead : (notAhead (text ['\n'])).Ends (c :: cs) (some ([], c :: cs)) :=
      .ask htext (.done _)
    rw [if_pos (by simpa using hc)]
    exact ends_tight hahead ((isClass_char fun _ => true).2 c cs)

theorem IsClass.many {f : Char → Bool} (hp : IsClass p f) : ∀ cs : List Char,
    (many .none p).Ends cs (some ((cs.takeWhile f).map fun c => .terminal [c], cs.dropWhile f))
  | [] => ends_many_none hp.1
  | c :: cs => by
    have hc := hp.2 c cs
    by_cases hf : f c = true
    · rw [if_pos hf] at hc
      rw [List.takeWhile_cons_of_pos hf, List.dropWhile_cons_of_pos hf]
      exact ends_many .none hc (hp.many cs)
    · rw [if_neg hf] at hc
      rw [List.takeWhile_cons_of_neg hf, List.dropWhile_cons_of_neg hf]
      exact ends_many_none hc

end Pattern

namespace Layout

theorem after_dropWhile_isBlank (cs : List Char) :
    after false (cs.dropWhile isBlank) = after false cs := by
  induction cs with
  | nil => rfl
  | cons c cs ih =>
    by_cases hc : isBlank c = true
    · rw [List.dropWhile_cons_of_pos hc, ih]
      exact (skip_blank hc cs).symm
    · rw [List.dropWhile_cons_of_neg hc]

/-- A comment ends before the end of its line. -/
theorem after_dropWhile_line (cs : List Char) :
    after false (cs.dropWhile (· != '\n')) = after true cs := by
  induction cs with
  | nil => rfl
  | cons c cs ih =>
    by_cases hc : c = '\n'
    · subst hc
      rw [List.dropWhile_cons_of_neg (by simp), after_line, after_line]
    · have hline : (c != '\n') = true := by simpa using hc
      rw [List.dropWhile_cons_of_pos (p := (· != '\n')) hline, ih, after, hline]

/-- Where neither a blank nor a comment stands first, there is no layout. -/
theorem skip_eq_self {cs : List Char} (hblank : cs.dropWhile isBlank = cs)
    (hcomment : ∀ ds, cs ≠ '/' :: '/' :: ds) : skip cs = cs := by
  cases cs with
  | nil => rfl
  | cons c cs =>
    have hc : isBlank c = false := by
      by_contra hc
      have hle := (cs.dropWhile_sublist isBlank).length_le
      rw [List.dropWhile_cons_of_pos (by simpa using hc)] at hblank
      rw [hblank, List.length_cons] at hle
      omega
    refine skip_cons hc ?_
    rintro rfl hhead
    obtain ⟨ds, rfl⟩ := List.head?_eq_some_iff.1 hhead
    exact hcomment ds rfl

end Layout

theorem Tree.textAll_terminals (cs : List Char) :
    textAll (cs.map fun c => .terminal [c]) = cs := by
  induction cs with
  | nil => rfl
  | cons c cs ih => simp [ih]

namespace Pattern

variable {gap : Gap} {p q : Pattern} {cs mid rest : List Char} {ts us : List Tree}

/-- A comment goes on to the end of its line. -/
theorem ends_comment (cs : List Char) : ∃ ts,
    (rule .comment).Ends ('/' :: '/' :: cs) (some (ts, cs.dropWhile (· != '\n'))) ∧
      textAll ts ++ cs.dropWhile (· != '\n') = '/' :: '/' :: cs := by
  refine ⟨_, ends_rule (r := .comment)
    (ends_tight (ends_text ['/', '/']) (isClass_comment.many cs)), ?_⟩
  rw [Rule.textAll_wrap]
  simp [Tree.textAll_terminals, List.takeWhile_append_dropWhile]

theorem ends_comment_none (h : ∀ rest, cs ≠ '/' :: '/' :: rest) : (rule .comment).Ends cs none :=
  ends_rule_none (.ask (ends_text_none (t := ['/', '/']) h) (.done _))

/-- Comments and blanks, where no blank stands first. -/
theorem ends_comments (cs : List Char) (hcs : cs.dropWhile isBlank = cs) : ∃ ts,
    (many .none (word [rule .comment] (many .none (rule .whitespace)))).Ends cs
      (some (ts, skip cs)) ∧ textAll ts ++ skip cs = cs := by
  induction h : cs.length using Nat.strongRecOn generalizing cs with
  | ind n ih =>
    subst h
    by_cases hcomment : ∃ ds, cs = '/' :: '/' :: ds
    · obtain ⟨ds, rfl⟩ := hcomment
      obtain ⟨ts, hends, htext⟩ := ends_comment ds
      have hblanks := isClass_whitespace.many (ds.dropWhile (· != '\n'))
      have hitem := ends_tight hends hblanks
      have hlt : ((ds.dropWhile (· != '\n')).dropWhile isBlank).length <
          ('/' :: '/' :: ds).length := by
        have h₁ := ((ds.dropWhile (· != '\n')).dropWhile_sublist isBlank).length_le
        have h₂ := (ds.dropWhile_sublist (· != '\n')).length_le
        simp only [List.length_cons]
        omega
      obtain ⟨us, hmany, hrest⟩ := ih _ hlt _ (List.dropWhile_idempotent _ _) rfl
      have hskip : skip ((ds.dropWhile (· != '\n')).dropWhile isBlank) =
          skip ('/' :: '/' :: ds) :=
        (Layout.after_dropWhile_isBlank _).trans (Layout.after_dropWhile_line ds)
      rw [hskip] at hmany hrest
      refine ⟨_, ends_many .none hitem hmany, ?_⟩
      rw [Tree.textAll_append, Tree.textAll_append, Tree.textAll_terminals, List.append_assoc,
        List.append_assoc, hrest, List.takeWhile_append_dropWhile, htext]
    · rw [not_exists] at hcomment
      have hskip := Layout.skip_eq_self hcs hcomment
      refine ⟨[], ?_, hskip⟩
      rw [hskip]
      exact ends_many_none (.ask (ends_comment_none hcomment) (.done _))

/-- The layout at the start of a text is what the scanner cuts off. -/
theorem ends_spacing (cs : List Char) : ∃ ts,
    spacing.Ends cs (some (ts, skip cs)) ∧ textAll ts ++ skip cs = cs := by
  obtain ⟨ts, hends, htext⟩ := ends_comments _ (List.dropWhile_idempotent _ cs)
  have hskip : skip (cs.dropWhile isBlank) = skip cs := Layout.after_dropWhile_isBlank cs
  rw [hskip] at hends htext
  refine ⟨_, ends_tight (isClass_whitespace.many cs) hends, ?_⟩
  rw [Tree.textAll_append, Tree.textAll_terminals, List.append_assoc, htext,
    List.takeWhile_append_dropWhile]

/-- A gap is cut off as its pattern is matched. -/
theorem ends_gap (gap : Gap) (cs : List Char) : ∃ ts,
    gap.pattern.Ends cs (some (ts, (gap.split cs).2)) ∧ textAll ts = (gap.split cs).1 := by
  cases gap with
  | none => exact ⟨[], .done _, rfl⟩
  | layout =>
    obtain ⟨ts, hends, htext⟩ := ends_spacing cs
    have hskip : (Layout.split cs).2 = skip cs := Layout.scan_after [] false cs
    have hsplit := Layout.split_append cs
    rw [← hskip] at hends htext
    exact ⟨ts, hends, List.append_cancel_right (htext.trans hsplit.symm)⟩

/-! ## The matcher follows the searches -/

/-- Two parts with a gap between them. -/
theorem ends_seq (gap : Gap) {o : Option Found} (hp : p.Ends cs (some (ts, mid)))
    (hq : q.Ends (gap.split mid).2 o) : (seq gap p q).Ends cs
      (o.map fun m => (ts ++ (Gap.tree (gap.split mid).1 ++ m.1), m.2)) := by
  obtain ⟨ls, hgap, htext⟩ := ends_gap gap mid
  rw [← htext]
  refine .ask hp (.ask hgap (.ask hq ?_))
  cases o with
  | none => exact .done _
  | some m => exact .done _

/-- A match ends as the matcher finds. -/
theorem Finds.ends {o : Option Found} (h : p.Finds cs o) : p.Ends cs o := by
  induction h with
  | empty | finish | text | charEnd | char => exact .done _
  | seqFail _ ih | altLeft _ ih => exact .ask ih (.done _)
  | @seq gap _ _ _ _ _ _ _ _ ihp ihq => exact ends_seq gap ihp ihq
  | altRight _ _ ihp ihq => exact .ask ihp (.ask ihq (.done _))
  | manyNone _ ih => exact ends_many_none ih
  | @many gap _ _ _ _ _ _ _ _ _ ihp ihmany => exact ends_many gap ihp ihmany
  | @ahead _ _ o _ ih | @notAhead _ _ o _ ih =>
    refine .ask ih ?_
    cases o with
    | none => exact .done _
    | some m => exact .done _
  | @rule _ _ o _ ih =>
    cases o with
    | none => exact ends_rule_none ih
    | some m => exact ends_rule ih

/-- A pattern whose repetitions consume ends at every text, and only as the matcher says. -/
theorem ends_iff {k : Nat} (ranked : p.Ranked k) {o : Option Found} :
    p.Ends cs o ↔ o = (p.run k ranked cs).map Match.found := by
  have hends := (p.finds_run k ranked cs).ends
  constructor
  · intro h
    exact Search.Ends.unique h hends
  · rintro rfl
    exact hends

end Pattern

end Scoped.Grammar
