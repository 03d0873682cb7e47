import Scoped.Proofs.Matching
import Scoped.Program.Read

/-!
# Programs without their spans

`erase` sets every span of a tree to the same one, so that two programs are equal after it exactly
if they differ in their spans only. Reading commutes with it : from nodes that have lost their
places the same program is read, with its spans erased, and it is read if and only if one is read
from the nodes at their places (`Expr.mirrors_ofNode`, `Stmt.mirrors_ofNode`). Only the faults
differ, because they say where.
-/

namespace Scoped

open Grammar

/-! ## Erasure -/

/-- The name, without its place. -/
def Ident.erase (x : Ident) : Ident := ⟨x.name, .nowhere⟩

mutual

/-- The expression without its spans. -/
def Expr.erase : Expr → Expr
  | .literal _ v => .literal .nowhere v
  | .ident x => .ident x.erase
  | .assign _ x e => .assign .nowhere x.erase e.erase
  | .unary _ op e => .unary .nowhere op e.erase
  | .binary _ op l r => .binary .nowhere op l.erase r.erase
  | .logical _ op l r => .logical .nowhere op l.erase r.erase
  | .call _ f args => .call .nowhere f.erase (Expr.eraseAll args)
  | .function d => .function d.erase

/-- The expressions without their spans. -/
def Expr.eraseAll : List Expr → List Expr
  | [] => []
  | e :: es => e.erase :: Expr.eraseAll es

/-- The statement without its spans. -/
def Stmt.erase : Stmt → Stmt
  | .expr _ e => .expr .nowhere e.erase
  | .print _ e => .print .nowhere e.erase
  | .ret _ none => .ret .nowhere none
  | .ret _ (some e) => .ret .nowhere (some e.erase)
  | .block _ body => .block .nowhere (Stmt.eraseAll body)
  | .bind _ x none => .bind .nowhere x.erase none
  | .bind _ x (some e) => .bind .nowhere x.erase (some e.erase)
  | .function d => .function d.erase
  | .cond _ e a none => .cond .nowhere e.erase a.erase none
  | .cond _ e a (some b) => .cond .nowhere e.erase a.erase (some b.erase)

/-- The statements without their spans. -/
def Stmt.eraseAll : List Stmt → List Stmt
  | [] => []
  | s :: ss => s.erase :: Stmt.eraseAll ss

/-- The function without its spans. -/
def FunctionDef.erase : FunctionDef → FunctionDef
  | .mk _ id params _ body =>
    .mk .nowhere (id.map Ident.erase) (params.map Ident.erase) .nowhere (Stmt.eraseAll body)

end

theorem FunctionDef.id_erase : ∀ d : FunctionDef, d.erase.id = d.id.map Ident.erase
  | .mk _ _ _ _ _ => rfl

/-- The program without its spans. -/
def Program.erase (p : Program) : Program := ⟨.nowhere, Stmt.eraseAll p.body⟩

/-! ## Erasing twice -/

theorem Ident.erase_erase (x : Ident) : x.erase.erase = x.erase := rfl

theorem Ident.map_erase_map_erase (xs : List Ident) :
    (xs.map Ident.erase).map Ident.erase = xs.map Ident.erase := by
  rw [List.map_map]
  rfl

mutual

theorem Expr.erase_erase : ∀ e : Expr, e.erase.erase = e.erase
  | .literal .. | .ident _ => rfl
  | .assign _ _ e | .unary _ _ e => by simp only [Expr.erase, Ident.erase, e.erase_erase]
  | .binary _ _ l r | .logical _ _ l r => by simp only [Expr.erase, l.erase_erase, r.erase_erase]
  | .call _ f args => by simp only [Expr.erase, f.erase_erase, Expr.eraseAll_eraseAll args]
  | .function d => by simp only [Expr.erase, d.erase_erase]

theorem Expr.eraseAll_eraseAll : ∀ es : List Expr,
    Expr.eraseAll (Expr.eraseAll es) = Expr.eraseAll es
  | [] => rfl
  | e :: es => by simp only [Expr.eraseAll, e.erase_erase, Expr.eraseAll_eraseAll es]

theorem Stmt.erase_erase : ∀ s : Stmt, s.erase.erase = s.erase
  | .expr _ e | .print _ e | .ret _ (some e) => by simp only [Stmt.erase, e.erase_erase]
  | .ret _ none | .bind _ _ none => rfl
  | .block _ body => by simp only [Stmt.erase, Stmt.eraseAll_eraseAll body]
  | .bind _ _ (some e) => by simp only [Stmt.erase, Ident.erase, e.erase_erase]
  | .function d => by simp only [Stmt.erase, d.erase_erase]
  | .cond _ e a none => by simp only [Stmt.erase, e.erase_erase, a.erase_erase]
  | .cond _ e a (some b) => by
    simp only [Stmt.erase, e.erase_erase, a.erase_erase, b.erase_erase]

theorem Stmt.eraseAll_eraseAll : ∀ ss : List Stmt,
    Stmt.eraseAll (Stmt.eraseAll ss) = Stmt.eraseAll ss
  | [] => rfl
  | s :: ss => by simp only [Stmt.eraseAll, s.erase_erase, Stmt.eraseAll_eraseAll ss]

theorem FunctionDef.erase_erase : ∀ d : FunctionDef, d.erase.erase = d.erase
  | .mk _ id params _ body => by
    simp only [FunctionDef.erase, Ident.map_erase_map_erase, Stmt.eraseAll_eraseAll body,
      Option.map_map]
    rfl

end

theorem Stmt.eraseAll_append : ∀ as bs : List Stmt,
    Stmt.eraseAll (as ++ bs) = Stmt.eraseAll as ++ Stmt.eraseAll bs
  | [], _ => rfl
  | a :: as, bs => congrArg (a.erase :: ·) (Stmt.eraseAll_append as bs)

/-! ## Results up to a function -/

/-- A computation that follows another has a result only after it. -/
theorem bind_eq_ok {α β : Type} {x : Except Error α} {k : α → Except Error β} {b : β} :
    x >>= k = .ok b ↔ ∃ a, x = .ok a ∧ k a = .ok b := by
  cases x with
  | error e => simp [bind, Except.bind]
  | ok a => simp [bind, Except.bind]

/-- Both computations fail, or `f` takes the first result to the second. -/
def Mirrors {α β : Type} (f : α → β) (x : Except Error α) (y : Except Error β) : Prop :=
  y.toOption = x.toOption.map f

namespace Mirrors

variable {α β γ δ : Type} {f : α → β} {g : γ → δ}

theorem ok (a : α) : Mirrors f (.ok a) (.ok (f a)) := rfl

theorem error (e e' : Error) : Mirrors f (.error e) (.error e') := rfl

theorem bind {x : Except Error α} {y : Except Error β} {k : α → Except Error γ}
    {k' : β → Except Error δ} (h : Mirrors f x y) (hk : ∀ a, Mirrors g (k a) (k' (f a))) :
    Mirrors g (x >>= k) (y >>= k') := by
  cases x with
  | error e =>
    cases y with
    | error e' => rfl
    | ok b => cases h
  | ok a =>
    cases y with
    | error e => cases h
    | ok b =>
      cases h
      exact hk a

theorem ok_iff {x : Except Error α} {y : Except Error β} (h : Mirrors f x y) {b : β} :
    y = .ok b ↔ ∃ a, x = .ok a ∧ f a = b := by
  cases x with
  | error e =>
    cases y with
    | error e' => simp
    | ok b => cases h
  | ok a =>
    cases y with
    | error e => cases h
    | ok b =>
      cases h
      simp

end Mirrors

/-! ## Reading -/

theorem Ident.ofNode_erase (n : Node) : Ident.ofNode n.erase = (Ident.ofNode n).erase := by
  cases n
  rfl

theorem Ident.map_ofNode_eraseAll (ns : List Node) :
    (Node.eraseAll ns).map Ident.ofNode = (ns.map Ident.ofNode).map Ident.erase := by
  induction ns with
  | nil => rfl
  | cons n ns ih =>
    rw [Node.eraseAll, List.map_cons, ih, Ident.ofNode_erase, List.map_cons, List.map_cons]

theorem Literal.mirrors_ofNode (n : Node) :
    Mirrors id (Literal.ofNode n) (Literal.ofNode n.erase) := by
  obtain ⟨rule, span, text, children⟩ := n
  cases rule with
  | nilLiteral | booleanLiteral => exact .ok _
  | numericLiteral =>
    simp only [Node.erase, Literal.ofNode]
    cases Literal.ofNumeral? text with
    | some l => exact .ok l
    | none => exact .error _ _
  | stringLiteral =>
    obtain _ | ⟨⟨_, _, _, _⟩, _⟩ := children
    · exact .ok _
    · exact .ok _
  | _ => exact .error _ _

theorem UnaryOp.mirrors_ofNode (n : Node) :
    Mirrors id (UnaryOp.ofNode n) (UnaryOp.ofNode n.erase) := by
  obtain ⟨rule, span, text, children⟩ := n
  simp only [Node.erase, UnaryOp.ofNode]
  cases UnaryOp.ofSymbol? (String.ofList text) with
  | some op => exact .ok op
  | none => exact .error _ _

theorem Connective.mirrors_ofLogicalNode (n : Node) :
    Mirrors id (Connective.ofLogicalNode n) (Connective.ofLogicalNode n.erase) := by
  obtain ⟨rule, span, text, children⟩ := n
  cases rule with
  | orOperator | andOperator => exact .ok _
  | _ => exact .error _ _

theorem Connective.mirrors_ofBinaryNode (n : Node) :
    Mirrors id (Connective.ofBinaryNode n) (Connective.ofBinaryNode n.erase) := by
  obtain ⟨rule, span, text, children⟩ := n
  simp only [Node.erase, Connective.ofBinaryNode]
  cases BinaryOp.ofSymbol? (String.ofList text) with
  | some op => exact .ok _
  | none => exact .error _ _

theorem Connective.erase_join (c : Connective) (span : Span) (l r : Expr) :
    (c.join span l r).erase = c.join .nowhere l.erase r.erase := by
  cases c <;> rfl

/-- The parts of a function without their spans. -/
def FunctionParts.erase (parts : FunctionParts) : FunctionParts :=
  ⟨parts.id.map Ident.erase, parts.params.map Ident.erase,
    parts.body.map fun b => (.nowhere, Stmt.eraseAll b.2)⟩

theorem FunctionParts.mirrors_function (rule : Rule) (span : Span) (parts : FunctionParts) :
    Mirrors FunctionDef.erase (parts.function rule span)
      (parts.erase.function rule .nowhere) := by
  obtain ⟨id, params, _ | ⟨bodySpan, body⟩⟩ := parts
  · exact .error _ _
  · exact .ok _

theorem Stmt.allOfNodes_cons {n : Node} (h : n.rule = .statement) (ns : List Node) :
    Stmt.allOfNodes (n :: ns) = do
      let s ← Stmt.ofNode n
      return s :: (← Stmt.allOfNodes ns) := by
  obtain ⟨rule, span, text, children⟩ := n
  obtain rfl : rule = .statement := h
  rfl

/-- A node whose rule is not that of an operator is an operand. -/
theorem Expr.ofNode_operand {n : Node} (h : n.rule ≠ .unaryOperator) (span : Span)
    (text : List Char) (ns : List Node) :
    Expr.ofNode ⟨.unaryExpression, span, text, n :: ns⟩ = Expr.ofNode n := by
  simp only [Expr.ofNode, if_neg h]

/-- Where there is one node only, it is read if it is no operator. -/
theorem Expr.ofNode_singleton {span : Span} {chars : List Char} {n : Node} {e : Expr} :
    Expr.ofNode ⟨.unaryExpression, span, chars, [n]⟩ = .ok e ↔ Expr.ofNode n = .ok e := by
  obtain ⟨rule, place, text, children⟩ := n
  by_cases hrule : rule = .unaryOperator
  · subst hrule
    refine ⟨fun h => ?_, fun h => by cases h⟩
    obtain ⟨op, -, h⟩ := bind_eq_ok.1 h
    cases h
  · rw [Expr.ofNode_operand hrule]

mutual

theorem Expr.mirrors_ofNode : ∀ n : Node,
    Mirrors Expr.erase (Expr.ofNode n) (Expr.ofNode n.erase)
  | ⟨rule, span, text, children⟩ => by
    cases rule with
    | assignmentExpression =>
      match children with
      | target :: value :: _ =>
        simp only [Node.erase, Node.eraseAll, Expr.ofNode, Ident.ofNode_erase]
        exact (Expr.mirrors_ofNode value).bind fun _ => .ok _
      | [] | [_] => exact .error _ _
    | unaryExpression =>
      match children with
      | [] => exact .error _ _
      | ⟨label, place, chars, below⟩ :: rest =>
        by_cases hop : label = .unaryOperator
        · simp only [Node.erase, Node.eraseAll, Expr.ofNode, if_pos hop]
          refine (UnaryOp.mirrors_ofNode ⟨label, place, chars, below⟩).bind fun op => ?_
          match rest with
          | operand :: _ => exact (Expr.mirrors_ofNode operand).bind fun _ => .ok _
          | [] => exact .error _ _
        · rw [Node.erase, Node.eraseAll, Node.erase, Expr.ofNode_operand hop,
            Expr.ofNode_operand hop]
          exact Expr.mirrors_ofNode ⟨label, place, chars, below⟩
    | callExpression =>
      match children with
      | callee :: args =>
        exact (Expr.mirrors_ofNode callee).bind fun e => Expr.mirrors_callsOfNodes span.start e args
      | [] => exact .error _ _
    | functionExpression =>
      exact (FunctionDef.mirrors_ofNodes _ span .none children).bind fun _ => .ok _
    | identifier => exact .ok _
    | logicalOrExpression | logicalAndExpression =>
      match children with
      | first :: rest =>
        exact (Expr.mirrors_ofNode first).bind fun e =>
          Expr.mirrors_chainOfNodes Connective.mirrors_ofLogicalNode _ span e rest
      | [] => exact .error _ _
    | equalityExpression | relationalExpression | additiveExpression
    | multiplicativeExpression =>
      match children with
      | first :: rest =>
        exact (Expr.mirrors_ofNode first).bind fun e =>
          Expr.mirrors_chainOfNodes Connective.mirrors_ofBinaryNode _ span e rest
      | [] => exact .error _ _
    | nilLiteral | booleanLiteral | numericLiteral | stringLiteral =>
      exact (Literal.mirrors_ofNode ⟨_, span, text, children⟩).bind fun _ => .ok _
    | _ => exact .error _ _

theorem Expr.mirrors_chainOfNodes {connective : Node → Except Error Connective}
    (h : ∀ n, Mirrors id (connective n) (connective n.erase)) (rule : Rule) (span : Span)
    (left : Expr) : ∀ ns : List Node,
    Mirrors Expr.erase (Expr.chainOfNodes connective rule span left ns)
      (Expr.chainOfNodes connective rule .nowhere left.erase (Node.eraseAll ns))
  | [] => .ok left
  | [op] => (h op).bind fun _ => .error _ _
  | op :: ⟨label, place, text, children⟩ :: rest =>
    (h op).bind fun c => (Expr.mirrors_ofNode ⟨label, place, text, children⟩).bind fun right => by
      have hrest := Expr.mirrors_chainOfNodes h rule span
        (c.join ⟨span.start, place.stop⟩ left right) rest
      rw [c.erase_join] at hrest
      exact hrest

theorem Expr.mirrors_callsOfNodes (start : Nat) (callee : Expr) : ∀ ns : List Node,
    Mirrors Expr.erase (Expr.callsOfNodes start callee ns)
      (Expr.callsOfNodes 0 callee.erase (Node.eraseAll ns))
  | [] => .ok callee
  | ⟨_, span, _, args⟩ :: rest =>
    (Expr.mirrors_allOfNodes args).bind fun es =>
      Expr.mirrors_callsOfNodes start (.call ⟨start, span.stop⟩ callee es) rest

theorem Expr.mirrors_allOfNodes : ∀ ns : List Node,
    Mirrors Expr.eraseAll (Expr.allOfNodes ns) (Expr.allOfNodes (Node.eraseAll ns))
  | [] => .ok []
  | n :: ns =>
    (Expr.mirrors_ofNode n).bind fun _ => (Expr.mirrors_allOfNodes ns).bind fun _ => .ok _

theorem FunctionDef.mirrors_ofNodes (rule : Rule) (span : Span) (parts : FunctionParts) :
    ∀ ns : List Node, Mirrors FunctionDef.erase (FunctionDef.ofNodes rule span parts ns)
      (FunctionDef.ofNodes rule .nowhere parts.erase (Node.eraseAll ns))
  | [] => parts.mirrors_function rule span
  | ⟨label, place, text, children⟩ :: ns => by
    cases label with
    | identifier =>
      exact FunctionDef.mirrors_ofNodes rule span
        { parts with id := some (Ident.ofNode ⟨.identifier, place, text, children⟩) } ns
    | formalParameters =>
      have hrest := FunctionDef.mirrors_ofNodes rule span
        { parts with params := children.map Ident.ofNode } ns
      rw [FunctionParts.erase, ← Ident.map_ofNode_eraseAll] at hrest
      exact hrest
    | functionBody =>
      exact (Stmt.mirrors_allOfNodes children).bind fun body =>
        FunctionDef.mirrors_ofNodes rule span { parts with body := some (place, body) } ns
    | _ => exact .error _ _

theorem Stmt.mirrors_ofNode : ∀ n : Node,
    Mirrors Stmt.erase (Stmt.ofNode n) (Stmt.ofNode n.erase)
  | ⟨_, _, _, []⟩ => .error _ _
  | ⟨_, _, _, ⟨rule, span, _, children⟩ :: _⟩ => by
    cases rule with
    | functionDeclaration =>
      exact (FunctionDef.mirrors_ofNodes _ span .none children).bind fun _ => .ok _
    | variableDeclaration =>
      match children with
      | [] => exact .error _ _
      | [x] =>
        simp only [Node.erase, Node.eraseAll, Stmt.ofNode, Ident.ofNode_erase]
        exact .ok _
      | x :: init :: _ =>
        simp only [Node.erase, Node.eraseAll, Stmt.ofNode, Ident.ofNode_erase]
        exact (Expr.mirrors_ofNode init).bind fun _ => .ok _
    | printStatement | expressionStatement =>
      match children with
      | [] => exact .error _ _
      | value :: _ => exact (Expr.mirrors_ofNode value).bind fun _ => .ok _
    | returnStatement =>
      match children with
      | [] => exact .ok _
      | value :: _ => exact (Expr.mirrors_ofNode value).bind fun _ => .ok _
    | ifStatement =>
      match children with
      | [] => exact .error _ _
      | [test] => exact (Expr.mirrors_ofNode test).bind fun _ => .error _ _
      | [test, consequent] =>
        exact (Expr.mirrors_ofNode test).bind fun _ =>
          (Stmt.mirrors_ofNode consequent).bind fun _ => .ok _
      | test :: consequent :: alternative :: _ =>
        exact (Expr.mirrors_ofNode test).bind fun _ =>
          (Stmt.mirrors_ofNode consequent).bind fun _ =>
            (Stmt.mirrors_ofNode alternative).bind fun _ => .ok _
    | blockStatement => exact (Stmt.mirrors_allOfNodes children).bind fun _ => .ok _
    | _ => exact .error _ _

theorem Stmt.mirrors_allOfNodes : ∀ ns : List Node,
    Mirrors Stmt.eraseAll (Stmt.allOfNodes ns) (Stmt.allOfNodes (Node.eraseAll ns))
  | [] => .ok []
  | ⟨rule, span, text, children⟩ :: ns => by
    by_cases hrule : rule = .statement
    · rw [Node.eraseAll, Node.erase, Stmt.allOfNodes_cons hrule, Stmt.allOfNodes_cons hrule]
      exact (Stmt.mirrors_ofNode ⟨rule, span, text, children⟩).bind fun _ =>
        (Stmt.mirrors_allOfNodes ns).bind fun _ => .ok _
    · cases rule with
      | statement => exact absurd rfl hrule
      | endOfInput => exact Stmt.mirrors_allOfNodes ns
      | _ => exact .error _ _

end

end Scoped
