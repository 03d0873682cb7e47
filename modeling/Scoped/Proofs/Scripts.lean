import Scoped.Proofs.Constructs
import Scoped.Proofs.Erasure

/-!
# Scripts

A script is read as statements up to its end. `Program.read_iff` says so in terms of `Repeats` and
of nodes that have no places, which is how the reading of programs is reasoned about.
-/

namespace Scoped

open Grammar Grammar.Pattern
open Grammar.Layout (skip)

variable {cs rest : List Char} {ns : List Node}

namespace Grammar

/-- The node where the script ends. -/
def Node.finish : Node := ⟨.endOfInput, .nowhere, [], []⟩

theorem reads_endOfInput : (rule .endOfInput).Reads cs ns rest ↔
    skip cs = [] ∧ ns = [Node.finish] ∧ skip rest = [] := by
  unfold Reads
  rw [Pattern.parse, Rule.parse_eq]
  cases hcs : skip cs with
  | nil =>
    constructor
    · rintro ⟨y, rest', h, rfl, hrest⟩
      cases h
      exact ⟨rfl, rfl, hrest.symm⟩
    · rintro ⟨-, rfl, hrest⟩
      exact ⟨_, _, rfl, rfl, hrest.symm⟩
  | cons c cs =>
    constructor
    · rintro ⟨y, rest', h, -⟩
      cases h
    · rintro ⟨h, -⟩
      cases h

/-- Layout may stand before a pattern. -/
theorem parse_layout_seq (q : Pattern) (cs : List Char) :
    (seq .layout empty q).parse cs =
      (q.parse (skip cs)).map fun m => (.ofLayout (Gap.layout.split cs).1 ++ m.1, m.2) := by
  rw [Pattern.parse, Pattern.parse, Option.bind_some, Gap.parse, Gap.skip_layout, Option.map_map]
  rfl

theorem reads_scriptBody :
    (phrase [many .layout (rule .statement)] (rule .endOfInput)).Reads cs ns rest ↔
      ∃ ms mid, (rule .statement).Repeats cs ms mid ∧ skip mid = [] ∧
        ns = ms ++ [Node.finish] ∧ skip rest = [] := by
  simp only [phrase_cons, phrase_nil, reads_seq, reads_many (p := rule .statement) rfl,
    reads_endOfInput]
  constructor
  · rintro ⟨ms, _, mid, h, ⟨hmid, rfl, hrest⟩, rfl⟩
    exact ⟨ms, mid, h, hmid, rfl, hrest⟩
  · rintro ⟨ms, mid, h, hmid, rfl, hrest⟩
    exact ⟨ms, _, mid, h, ⟨hmid, rfl, hrest⟩, rfl⟩

/-- The nodes of a script are those of its statements. -/
theorem repeats_of_parse_script {y : Yield} (h : Rule.script.parse cs = some (y, rest)) :
    ∃ chars ns mid, y.nodes = [⟨.script, .nowhere, chars, ns ++ [Node.finish]⟩] ∧
      (rule .statement).Repeats cs ns mid ∧ skip mid = [] := by
  rw [Rule.parse_eq, Rule.body, phrase_cons, parse_layout_seq] at h
  simp only [Option.map_map, Option.map_eq_some_iff] at h
  obtain ⟨⟨z, mid⟩, hz, heq⟩ := h
  cases heq
  obtain ⟨ns, mid', hrepeats, hmid', hns, -⟩ := reads_scriptBody.1 ⟨z, mid, hz, rfl, rfl⟩
  exact ⟨_, ns, mid', by rw [← hns]; rfl, hrepeats, hmid'⟩

theorem parse_script_of_repeats {mid : List Char} (h : (rule .statement).Repeats cs ns mid)
    (hmid : skip mid = []) : ∃ y rest chars, Rule.script.parse cs = some (y, rest) ∧
      y.nodes = [⟨.script, .nowhere, chars, ns ++ [Node.finish]⟩] := by
  obtain ⟨z, rest, hz, hnodes, -⟩ :=
    reads_scriptBody.2 ⟨ns, mid, h, hmid, rfl, Layout.skip_nil⟩
  rw [Rule.parse_eq, Rule.body, phrase_cons, parse_layout_seq, hz]
  exact ⟨_, rest, _, rfl, by rw [← hnodes]; rfl⟩

theorem rule_of_reads_statement {n : Node} (h : (rule .statement).Reads cs [n] rest) :
    n.rule = .statement := by
  obtain ⟨chars, ms, heq, -⟩ := reads_rule (r := .statement) rfl h
  cases heq
  rfl

end Grammar

/-- The node where the script ends is no statement. -/
theorem Stmt.allOfNodes_finish (ns : List Node) {last : Node} (hlast : last.rule = .endOfInput) :
    Stmt.allOfNodes (ns ++ [last]) = Stmt.allOfNodes ns := by
  induction ns with
  | nil =>
    obtain ⟨label, span, chars, children⟩ := last
    obtain rfl : label = .endOfInput := hlast
    rfl
  | cons n ns ih =>
    obtain ⟨label, span, chars, children⟩ := n
    cases label with
    | statement =>
      rw [List.cons_append, Stmt.allOfNodes_cons (by rfl), Stmt.allOfNodes_cons (by rfl), ih]
    | endOfInput => exact ih
    | _ => rfl

namespace Program

theorem mirrors_ofNodes (ns : List Node) :
    Mirrors Program.erase (ofNodes ns) (ofNodes (Node.eraseAll ns)) := by
  obtain _ | ⟨⟨_, _, _, children⟩, _⟩ := ns
  · exact .error _ _
  · exact (Stmt.mirrors_allOfNodes children).bind fun _ => .ok _

/-- A program is read off what the grammar matches, wherever that stands. -/
theorem read_iff_parse {s : String} {q : Program} :
    (∃ p, Program.read s = .ok p ∧ p.erase = q) ↔
      ∃ y rest, Rule.script.parse s.toList = some (y, rest) ∧ ofNodes y.nodes = .ok q := by
  unfold Program.read matchScript Rule.parse
  cases Rule.script.run s.toList with
  | none =>
    constructor
    · rintro ⟨p, h, -⟩
      cases h
    · rintro ⟨y, rest, h, -⟩
      cases h
  | some m =>
    have hmirrors := mirrors_ofNodes (Tree.locate m.parts)
    rw [Tree.eraseAll_locate] at hmirrors
    constructor
    · intro h
      exact ⟨_, _, rfl, hmirrors.ok_iff.2 h⟩
    · rintro ⟨y, rest, h, hok⟩
      cases h
      exact hmirrors.ok_iff.1 hok

/-- A script is read as the statements that it consists of. -/
theorem read_iff {s : String} {q : Program} :
    (∃ p, Program.read s = .ok p ∧ p.erase = q) ↔
      ∃ ns rest body, (rule .statement).Repeats s.toList ns rest ∧ skip rest = [] ∧
        Stmt.allOfNodes ns = .ok body ∧ q = ⟨.nowhere, body⟩ := by
  rw [read_iff_parse]
  constructor
  · rintro ⟨y, rest, hparse, hok⟩
    obtain ⟨chars, ns, mid, hnodes, hrepeats, hmid⟩ := repeats_of_parse_script hparse
    rw [hnodes, ofNodes, Stmt.allOfNodes_finish _ rfl] at hok
    cases hbody : Stmt.allOfNodes ns with
    | error e =>
      rw [hbody] at hok
      cases hok
    | ok body =>
      rw [hbody] at hok
      cases hok
      exact ⟨ns, mid, body, hrepeats, hmid, hbody, rfl⟩
  · rintro ⟨ns, mid, body, hrepeats, hmid, hbody, rfl⟩
    obtain ⟨y, rest, chars, hparse, hnodes⟩ := parse_script_of_repeats hrepeats hmid
    refine ⟨y, rest, hparse, ?_⟩
    rw [hnodes, ofNodes, Stmt.allOfNodes_finish _ rfl, hbody]
    rfl

end Program

end Scoped
