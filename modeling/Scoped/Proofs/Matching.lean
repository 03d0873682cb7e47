import Mathlib.Data.List.Basic
import Scoped.Grammar.Node
import Scoped.Proofs.Steps

/-!
# What patterns match

`Pattern.run` carries ranks, bounds and trees with all their characters. What later proofs
ask of a match is less : the nodes without their places, the texts between them, and what is
left of the input. `Pattern.parse` computes just that, by recursion over the pattern, with the
rules as they are : a reference to a rule is one step. Every match comes to what it computes
(`Finds.parse_eq`). `Rule.parse_eq` says that a rule matches what its body matches, so that a rule
is opened by rewriting, one level at a time.
-/

namespace Scoped

/-- The span of what has lost its place. -/
def Span.nowhere : Span := ⟨0, 0⟩

namespace Grammar

/-- What a match hands on : its nodes, which have no places, the texts between them, and all the
characters that were matched, with the layout. -/
structure Yield where
  nodes : List Node
  text : List Char
  full : List Char

namespace Yield

def empty : Yield := ⟨[], [], []⟩

def append (y z : Yield) : Yield := ⟨y.nodes ++ z.nodes, y.text ++ z.text, y.full ++ z.full⟩

instance : Append Yield := ⟨append⟩

/-- A text that was matched. -/
def ofText (t : List Char) : Yield := ⟨[], t, t⟩

/-- Layout that was skipped. -/
def ofLayout (t : List Char) : Yield := ⟨[], [], t⟩

/-- A node without its place. -/
def ofNode (r : Rule) (y : Yield) : Yield := ⟨[⟨r, .nowhere, y.text, y.nodes⟩], [], y.full⟩

@[simp]
theorem nodes_empty : empty.nodes = [] := rfl

@[simp]
theorem nodes_append (y z : Yield) : (y ++ z).nodes = y.nodes ++ z.nodes := rfl

@[simp]
theorem text_append (y z : Yield) : (y ++ z).text = y.text ++ z.text := rfl

@[simp]
theorem full_append (y z : Yield) : (y ++ z).full = y.full ++ z.full := rfl

@[simp]
theorem nodes_ofText (t : List Char) : (ofText t).nodes = [] := rfl

@[simp]
theorem text_ofText (t : List Char) : (ofText t).text = t := rfl

@[simp]
theorem full_ofText (t : List Char) : (ofText t).full = t := rfl

@[simp]
theorem nodes_ofLayout (t : List Char) : (ofLayout t).nodes = [] := rfl

@[simp]
theorem text_ofLayout (t : List Char) : (ofLayout t).text = [] := rfl

@[simp]
theorem nodes_ofNode (r : Rule) (y : Yield) :
    (ofNode r y).nodes = [⟨r, .nowhere, y.text, y.nodes⟩] := rfl

@[simp]
theorem ofLayout_nil : ofLayout [] = empty := rfl

@[simp]
theorem empty_append (y : Yield) : empty ++ y = y := rfl

@[simp]
theorem append_empty (y : Yield) : y ++ empty = y := by
  show Yield.mk (y.nodes ++ []) (y.text ++ []) (y.full ++ []) = y
  simp

@[simp]
theorem ofText_append (t u : List Char) : ofText t ++ ofText u = ofText (t ++ u) := rfl

theorem append_assoc (x y z : Yield) : x ++ y ++ z = x ++ (y ++ z) := by
  show Yield.mk (x.nodes ++ y.nodes ++ z.nodes) (x.text ++ y.text ++ z.text)
    (x.full ++ y.full ++ z.full) = ⟨_, _, _⟩
  simp only [List.append_assoc]
  rfl

end Yield

/-! ## Trees and located nodes -/

namespace Tree

mutual

/-- What a tree hands on. -/
def yield : Tree → Yield
  | layout t => .ofLayout t
  | terminal t => .ofText t
  | node r parts => .ofNode r (yieldAll parts)

/-- What a forest hands on. -/
def yieldAll : List Tree → Yield
  | [] => .empty
  | t :: ts => t.yield ++ yieldAll ts

end

@[simp]
theorem yieldAll_append (ts us : List Tree) :
    yieldAll (ts ++ us) = yieldAll ts ++ yieldAll us := by
  induction ts with
  | nil => rfl
  | cons t ts ih => rw [List.cons_append, yieldAll, yieldAll, ih, Yield.append_assoc]

@[simp]
theorem yieldAll_gap (cs : List Char) : yieldAll (Gap.tree cs) = .ofLayout cs := by
  cases cs with
  | nil => rfl
  | cons c cs => exact Yield.append_empty _

end Tree

mutual

/-- The node without its place. -/
def Node.erase : Node → Node
  | ⟨r, _, text, children⟩ => ⟨r, .nowhere, text, Node.eraseAll children⟩

/-- Nodes without their places. -/
def Node.eraseAll : List Node → List Node
  | [] => []
  | n :: ns => n.erase :: Node.eraseAll ns

end

@[simp]
theorem Node.eraseAll_append (ns ms : List Node) :
    Node.eraseAll (ns ++ ms) = Node.eraseAll ns ++ Node.eraseAll ms := by
  induction ns with
  | nil => rfl
  | cons n ns ih => rw [List.cons_append, eraseAll, eraseAll, ih, List.cons_append]

theorem Tree.locateFrom_yield (ts : List Tree) (nodes : List Node) (text : List Char) (pos : Nat) :
    Node.eraseAll (locateFrom nodes text pos ts).nodes =
        Node.eraseAll nodes.reverse ++ (yieldAll ts).nodes ∧
      (locateFrom nodes text pos ts).text = text.reverse ++ (yieldAll ts).text := by
  fun_induction locateFrom nodes text pos ts with
  | case1 nodes text pos => simp [yieldAll, Yield.empty]
  | case2 nodes text pos t ts ih => simpa [yieldAll, yield] using ih
  | case3 nodes text pos t ts ih => simpa [yieldAll, yield, List.reverseAux_eq] using ih
  | case4 nodes text pos r parts ts inner ihInner ih =>
    obtain ⟨hnodes, htext⟩ := ihInner
    obtain ⟨ihnodes, ihtext⟩ := ih
    refine ⟨?_, by simpa [yieldAll, yield, Yield.ofNode] using ihtext⟩
    have hinner : Node.eraseAll inner.nodes = (yieldAll parts).nodes := by
      simpa [inner, Node.eraseAll] using hnodes
    have hinner' : inner.text = (yieldAll parts).text := by simpa [inner] using htext
    rw [ihnodes]
    simp [yieldAll, yield, Node.eraseAll, Node.erase, hinner, hinner']

/-- The located nodes of a forest are those that it hands on, at their places. -/
theorem Tree.eraseAll_locate (ts : List Tree) :
    Node.eraseAll (locate ts) = (yieldAll ts).nodes := by
  simpa [locate, Node.eraseAll] using (locateFrom_yield ts [] [] 0).1

/-! ## Patterns -/

/-- What follows a gap. -/
def Gap.skip (gap : Gap) (cs : List Char) : List Char := (gap.split cs).2

@[simp]
theorem Gap.skip_none (cs : List Char) : Gap.none.skip cs = cs := rfl

/-- What a match hands on, and what is left of the input, or nothing if there is no match. -/
abbrev Outcome := Option (Yield × List Char)

/-- What a match of a rule hands on. -/
def Rule.yield (r : Rule) (y : Yield) : Yield :=
  match r.kind with
  | .silent => y
  | .atomic => .ofNode r (.ofText y.full)
  | .normal | .compound => .ofNode r y

/-- Matches a rule at the start of a text. -/
def Rule.parse (r : Rule) (cs : List Char) : Outcome :=
  (r.run cs).map fun m => (Tree.yieldAll m.parts, m.rest)

/-- Matches a pattern after a gap. -/
def Gap.parse (gap : Gap) (f : List Char → Outcome) (cs : List Char) : Outcome :=
  (f (gap.skip cs)).map fun m => (.ofLayout (gap.split cs).1 ++ m.1, m.2)

/-- Matches as often as there is a match. -/
def iterate (f : List Char → Outcome) (cs : List Char) : Yield × List Char :=
  match f cs with
  | none => (.empty, cs)
  | some (y, rest) =>
    if rest.length < cs.length then (y ++ (iterate f rest).1, (iterate f rest).2)
    else (.empty, cs)
termination_by cs.length

/-- Matches a pattern at the start of a text. -/
def Pattern.parse : Pattern → List Char → Outcome
  | empty, cs => some (.empty, cs)
  | finish, cs => if cs.isEmpty then some (.empty, cs) else none
  | text t, cs => (stripText t cs).map fun rest => (.ofText t, rest)
  | char _, [] => none
  | char accepts, c :: cs => if accepts c then some (.ofText [c], cs) else none
  | seq gap p q, cs =>
    (p.parse cs).bind fun m => (gap.parse q.parse m.2).map fun m' => (m.1 ++ m'.1, m'.2)
  | alt p q, cs => (p.parse cs).or (q.parse cs)
  | many gap p, cs =>
    match p.parse cs with
    | none => some (.empty, cs)
    | some (y, rest) =>
      let m := iterate (gap.parse p.parse) rest
      some (y ++ m.1, m.2)
  | ahead p, cs => (p.parse cs).map fun _ => (.empty, cs)
  | notAhead p, cs => if (p.parse cs).isSome then none else some (.empty, cs)
  | rule r, cs => r.parse cs

@[simp]
theorem Gap.none_parse (f : List Char → Outcome) : Gap.none.parse f = f := by
  funext cs
  rw [Gap.parse, Gap.skip_none]
  cases f cs <;> rfl

theorem Gap.parse_none {gap : Gap} {f : List Char → Outcome} {cs : List Char}
    (h : f (gap.skip cs) = .none) : gap.parse f cs = Option.none := by
  rw [Gap.parse, h, Option.map_none]

theorem Gap.parse_some {gap : Gap} {f : List Char → Outcome} {cs rest : List Char} {y : Yield}
    (h : f (gap.skip cs) = some (y, rest)) :
    gap.parse f cs = some (.ofLayout (gap.split cs).1 ++ y, rest) := by
  rw [Gap.parse, h, Option.map_some]

theorem iterate_none {f : List Char → Outcome} {cs : List Char} (h : f cs = none) :
    iterate f cs = (.empty, cs) := by
  rw [iterate, h]

theorem iterate_some {f : List Char → Outcome} {cs rest : List Char} {y : Yield}
    (h : f cs = some (y, rest)) (hlt : rest.length < cs.length) :
    iterate f cs = (y ++ (iterate f rest).1, (iterate f rest).2) := by
  rw [iterate, h]
  simp only [hlt, if_true]

namespace Pattern

/-- Two patterns with nothing between them. -/
theorem parse_tight (p q : Pattern) (cs : List Char) :
    (seq .none p q).parse cs =
      (p.parse cs).bind fun m => (q.parse m.2).map fun m' => (m.1 ++ m'.1, m'.2) := by
  show (p.parse cs).bind (fun m =>
    (Gap.none.parse q.parse m.2).map fun m' => (m.1 ++ m'.1, m'.2)) = _
  rw [Gap.none_parse]

end Pattern

/-! ## What is left gets shorter -/

theorem Rule.parse_length {r : Rule} {cs rest : List Char} {y : Yield}
    (h : r.parse cs = some (y, rest)) : rest.length + r.consumes.toNat ≤ cs.length := by
  obtain ⟨m, -, heq⟩ := Option.map_eq_some_iff.1 h
  cases heq
  exact m.length_rest

theorem iterate_length (f : List Char → Outcome) (cs : List Char) :
    (iterate f cs).2.length ≤ cs.length := by
  fun_induction iterate f cs with
  | case1 cs h => exact Nat.le_refl _
  | case2 cs y rest h hlt ih => exact Nat.le_trans ih (Nat.le_of_lt hlt)
  | case3 cs y rest h hlt => exact Nat.le_refl _

namespace Pattern

theorem parse_length : ∀ {p : Pattern} {cs rest : List Char} {y : Yield},
    p.parse cs = some (y, rest) → rest.length + p.consumes.toNat ≤ cs.length
  | empty, cs, rest, y, h => by
    cases h
    exact Nat.le_refl _
  | finish, cs, rest, y, h => by
    rw [parse] at h
    split at h <;> cases h
    exact Nat.le_refl _
  | text t, cs, rest, y, h => by
    obtain ⟨r, hr, heq⟩ := Option.map_eq_some_iff.1 h
    cases heq
    exact length_add_consumes_text hr
  | char accepts, [], rest, y, h => by cases h
  | char accepts, c :: cs, rest, y, h => by
    rw [parse] at h
    split at h <;> cases h
    exact Nat.le_refl _
  | seq gap p q, cs, rest, y, h => by
    obtain ⟨⟨z, mid⟩, hp, h⟩ := Option.bind_eq_some_iff.1 h
    obtain ⟨⟨z', rest'⟩, hgap, heq⟩ := Option.map_eq_some_iff.1 h
    cases heq
    obtain ⟨⟨z'', rest''⟩, hq, heq⟩ := Option.map_eq_some_iff.1 hgap
    cases heq
    exact toNat_or_le (parse_length hp) (gap.length_rest_le mid) (parse_length hq)
  | alt p q, cs, rest, y, h => by
    rw [parse] at h
    cases hp : p.parse cs with
    | some m =>
      rw [hp] at h
      cases h
      exact toNat_and_le_left (parse_length hp)
    | none =>
      rw [hp] at h
      exact toNat_and_le_right (parse_length (p := q) h)
  | many gap p, cs, rest, y, h => by
    rw [parse] at h
    cases hp : p.parse cs with
    | none =>
      rw [hp] at h
      cases h
      exact Nat.le_refl _
    | some m =>
      rw [hp] at h
      cases h
      exact Nat.le_trans (iterate_length _ _) (Nat.le_of_add_right_le (parse_length hp))
  | ahead p, cs, rest, y, h => by
    obtain ⟨m, -, heq⟩ := Option.map_eq_some_iff.1 h
    cases heq
    exact Nat.le_refl _
  | notAhead p, cs, rest, y, h => by
    rw [parse] at h
    split at h <;> cases h
    exact Nat.le_refl _
  | rule r, cs, rest, y, h => Rule.parse_length h

/-- A repetition with nothing between the matches. -/
theorem parse_many_tight {p : Pattern} (hp : p.consumes = true) (cs : List Char) :
    (many .none p).parse cs = some (iterate p.parse cs) := by
  rw [parse, Gap.none_parse]
  cases h : p.parse cs with
  | none => rw [iterate_none h]
  | some m =>
    have hlt := parse_length h
    rw [hp] at hlt
    rw [iterate_some h hlt]

end Pattern

mutual

theorem Tree.full_yield : ∀ t : Tree, t.yield.full = t.text
  | layout t => by
    rw [yield, text_layout]
    rfl
  | terminal t => by
    rw [yield, text_terminal]
    rfl
  | node r parts => by
    rw [yield, text_node]
    exact Tree.full_yieldAll parts

theorem Tree.full_yieldAll : ∀ ts : List Tree, (yieldAll ts).full = textAll ts
  | [] => rfl
  | t :: ts => by
    rw [yieldAll, textAll_cons, Yield.full_append, Tree.full_yield t, Tree.full_yieldAll ts]

end

theorem Rule.yieldAll_wrap (r : Rule) (ts : List Tree) :
    Tree.yieldAll (r.wrap ts) = r.yield (Tree.yieldAll ts) := by
  simp only [Rule.yield, Rule.wrap]
  cases r.kind with
  | silent => rfl
  | normal | compound | atomic => simp [Tree.yieldAll, Tree.yield, Tree.full_yieldAll]

/-! ## What the matcher finds -/

/-- What was found, as it is handed on. -/
def Found.view (m : Found) : Yield × List Char := (Tree.yieldAll m.1, m.2)

/-- What is repeated is matched after a gap. -/
theorem Gap.parse_item (gap : Gap) (p : Pattern) : (gap.item p).parse = gap.parse p.parse := by
  cases gap with
  | none => exact (Gap.none_parse p.parse).symm
  | layout =>
    funext cs
    show (Gap.layout.parse p.parse cs).map (fun m => (.empty ++ m.1, m.2)) = _
    cases Gap.layout.parse p.parse cs <;> rfl

/-- A match comes to what `parse` computes. -/
theorem Pattern.Finds.parse_eq {p : Pattern} {cs : List Char} {o : Option Found}
    (h : p.Finds cs o) : p.parse cs = o.map Found.view := by
  induction h with
  | empty | charEnd => rfl
  | finish cs =>
    rw [parse]
    split <;> rfl
  | text t cs =>
    rw [parse, Option.map_map]
    simp [Function.comp_def, Found.view, Tree.yieldAll, Tree.yield]
  | char accepts c cs =>
    rw [parse]
    split <;> rfl
  | seqFail _ ih =>
    rw [parse, ih]
    rfl
  | @seq gap p q cs mid ts o _ _ ihp ihq =>
    rw [parse, ihp]
    simp only [Option.map_some, Option.bind_some, Found.view, Gap.parse, Gap.skip, ihq]
    cases o with
    | none => rfl
    | some m => simp [Found.view]
  | altLeft _ ih =>
    rw [parse, ih]
    rfl
  | altRight _ _ ihp ihq =>
    rw [parse, ihp, ihq]
    rfl
  | manyNone _ ih =>
    rw [parse, ih]
    rfl
  | @many gap p cs mid rest ts us hc _ _ ihp ihmany =>
    rw [parse_many_tight (gap.consumes_item hc), gap.parse_item] at ihmany
    have hmore : iterate (gap.parse p.parse) mid = (Tree.yieldAll us, rest) :=
      Option.some.inj ihmany
    rw [parse, ihp]
    simp only [Option.map_some, Found.view, hmore, Tree.yieldAll_append]
  | @ahead _ _ o _ ih | @notAhead _ _ o _ ih =>
    rw [parse, ih]
    cases o <;> rfl
  | @rule r cs o h =>
    -- `parse` takes a rule as the matcher does
    rw [parse, Rule.parse, ← (r.finds_run cs).unique (.rule h), Option.map_map]
    rfl

/-- A rule matches what its body matches. -/
theorem Rule.parse_eq (r : Rule) (cs : List Char) :
    r.parse cs = (r.body.parse cs).map fun m => (r.yield m.1, m.2) := by
  obtain ⟨o, hbody⟩ : ∃ o, r.body.Finds cs o := ⟨_, r.body.finds_run r.rank r.ranked_body cs⟩
  have hparse : r.parse cs = _ := (Pattern.Finds.rule hbody).parse_eq
  rw [hparse, hbody.parse_eq, Option.map_map, Option.map_map]
  simp only [Function.comp_def, Found.view, r.yieldAll_wrap]

end Grammar

end Scoped
