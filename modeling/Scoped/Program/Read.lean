import Scoped.Grammar.Attempts
import Scoped.Grammar.Node
import Scoped.Program.Literal

/-!
# Reading programs

`Program.read` matches a script against the grammar and reads the program off the match.
Operators of one strength form a chain in the match, `first op second op third`, and group
to the left in the program; so do the argument lists after a function. A chain starts
where its first operand starts, also in the nodes inside it.

The nodes of a match say by their rules what they are, and the reader goes by that. Where it
meets a rule or an operator that it does not know there, or misses a node, it answers with a
`Misshape`. The grammar shapes matches so that this does not happen : the only fault that
reading can meet in a match is an integer that is too large.
-/

namespace Scoped

open Grammar

/-- The name that a node holds. -/
def Ident.ofNode (n : Node) : Ident := ⟨String.ofList n.text, n.span⟩

/-- A fault at a span. -/
def ScriptFault.at (fault : ScriptFault) (span : Span) : Error := ⟨.scriptError fault, span⟩

/-- A fault of shape in the node of a rule. -/
def Misshape.at (shape : Misshape) (rule : Rule) (span : Span) : Error :=
  (ScriptFault.misshapen rule.name shape).at span

/-- The fault of a numeral that denotes nothing : without a point it is too large. -/
def Grammar.Node.numeralFault (n : Node) : Error :=
  if n.text.contains '.' then Misshape.malformedNumber.at n.rule n.span
  else ScriptFault.oversized.at n.span

/-- The node of a literal as a literal. -/
def Literal.ofNode (n : Node) : Except Error Literal :=
  match n.rule with
  | .nilLiteral => .ok .nil
  | .booleanLiteral => .ok (.bool (n.text = ['t', 'r', 'u', 'e']))
  | .numericLiteral =>
    match ofNumeral? n.text with
    | some l => .ok l
    | none => .error n.numeralFault
  | .stringLiteral =>
    match n.children with
    | characters :: _ => .ok (.string (String.ofList (unescape characters.text)))
    | [] => .ok (.string "")
  | _ => .error (Misshape.unknownLiteral.at n.rule n.span)

/-- The operator before an operand, which a node holds as its text. -/
def UnaryOp.ofNode (n : Node) : Except Error UnaryOp :=
  match UnaryOp.ofSymbol? (String.ofList n.text) with
  | some op => .ok op
  | none => .error (Misshape.unknownUnary.at n.rule n.span)

/-- An operator of a logical chain, which the rule of the node tells. -/
def Connective.ofLogicalNode (n : Node) : Except Error Connective :=
  match n.rule with
  | .orOperator => .ok (.logical .or)
  | .andOperator => .ok (.logical .and)
  | _ => .error (Misshape.unknownLogical.at n.rule n.span)

/-- An operator of any other chain, which the text of the node tells. -/
def Connective.ofBinaryNode (n : Node) : Except Error Connective :=
  match BinaryOp.ofSymbol? (String.ofList n.text) with
  | some op => .ok (.binary op)
  | none => .error (Misshape.unknownBinary.at n.rule n.span)

/-- The parts of a function that have been read : its name, its parameters and its body. -/
structure FunctionParts where
  id : Option Ident
  params : List Ident
  body : Option (Span × List Stmt)

namespace FunctionParts

/-- No parts. -/
def none : FunctionParts := ⟨.none, [], .none⟩

/-- The function of these parts. There has to be a body among them. -/
def function (rule : Rule) (span : Span) (parts : FunctionParts) : Except Error FunctionDef :=
  match parts.body with
  | some (bodySpan, body) => .ok (.mk span parts.id parts.params bodySpan body)
  | .none => .error (Misshape.withoutBody.at rule span)

end FunctionParts

mutual

/-- Reads an expression. -/
def Expr.ofNode : Node → Except Error Expr
  | ⟨rule, span, text, children⟩ =>
    match rule, children with
    | .assignmentExpression, target :: value :: _ => do
      return .assign span (Ident.ofNode target) (← Expr.ofNode value)
    | .logicalOrExpression, first :: rest | .logicalAndExpression, first :: rest => do
      Expr.chainOfNodes Connective.ofLogicalNode rule span (← Expr.ofNode first) rest
    | .equalityExpression, first :: rest | .relationalExpression, first :: rest
    | .additiveExpression, first :: rest | .multiplicativeExpression, first :: rest => do
      Expr.chainOfNodes Connective.ofBinaryNode rule span (← Expr.ofNode first) rest
    | .unaryExpression, first :: rest =>
      if first.rule = .unaryOperator then do
        let op ← UnaryOp.ofNode first
        match rest with
        | operand :: _ => return .unary span op (← Expr.ofNode operand)
        | [] => .error (Misshape.missingChild.at rule span)
      else Expr.ofNode first
    | .callExpression, callee :: args => do
      Expr.callsOfNodes span.start (← Expr.ofNode callee) args
    | .functionExpression, children => do
      return .function (← FunctionDef.ofNodes rule span .none children)
    | .identifier, children => .ok (.ident (Ident.ofNode ⟨rule, span, text, children⟩))
    | .nilLiteral, children | .booleanLiteral, children | .numericLiteral, children
    | .stringLiteral, children => do
      return .literal span (← Literal.ofNode ⟨rule, span, text, children⟩)
    | .assignmentExpression, _ | .logicalOrExpression, [] | .logicalAndExpression, []
    | .equalityExpression, [] | .relationalExpression, [] | .additiveExpression, []
    | .multiplicativeExpression, [] | .unaryExpression, [] | .callExpression, [] =>
      .error (Misshape.missingChild.at rule span)
    | _, _ => .error (Misshape.unknownExpression.at rule span)

/-- Reads the rest of a chain after `left`, in the node of a rule. `connective` reads the
operators of the chain. -/
def Expr.chainOfNodes (connective : Node → Except Error Connective) (rule : Rule) (span : Span)
    (left : Expr) : List Node → Except Error Expr
  | op :: ⟨label, place, text, children⟩ :: rest => do
    let c ← connective op
    let right ← Expr.ofNode ⟨label, place, text, children⟩
    Expr.chainOfNodes connective rule span (c.join ⟨span.start, place.stop⟩ left right) rest
  | [op] => do
    let _ ← connective op
    .error (Misshape.missingChild.at rule span)
  | [] => .ok left

/-- Reads the argument lists after `callee`. -/
def Expr.callsOfNodes (start : Nat) (callee : Expr) : List Node → Except Error Expr
  | ⟨_, span, _, args⟩ :: rest => do
    Expr.callsOfNodes start (.call ⟨start, span.stop⟩ callee (← Expr.allOfNodes args)) rest
  | [] => .ok callee

/-- Reads expressions. -/
def Expr.allOfNodes : List Node → Except Error (List Expr)
  | n :: ns => do
    let e ← Expr.ofNode n
    return e :: (← Expr.allOfNodes ns)
  | [] => .ok []

/-- Reads the parts of a function, after those that have been read. Of two parts of one kind the
second one counts. -/
def FunctionDef.ofNodes (rule : Rule) (span : Span) (parts : FunctionParts) :
    List Node → Except Error FunctionDef
  | ⟨label, place, text, children⟩ :: ns =>
    match label with
    | .identifier =>
      let id := Ident.ofNode ⟨label, place, text, children⟩
      FunctionDef.ofNodes rule span { parts with id := some id } ns
    | .formalParameters =>
      FunctionDef.ofNodes rule span { parts with params := children.map Ident.ofNode } ns
    | .functionBody => do
      let body ← Stmt.allOfNodes children
      FunctionDef.ofNodes rule span { parts with body := some (place, body) } ns
    | _ => .error (Misshape.unexpectedPart.at label place)
  | [] => parts.function rule span

/-- Reads a statement off the first node below its own. -/
def Stmt.ofNode : Node → Except Error Stmt
  | ⟨_, _, _, ⟨rule, span, _, children⟩ :: _⟩ =>
    match rule, children with
    | .functionDeclaration, children => do
      return .function (← FunctionDef.ofNodes rule span .none children)
    | .variableDeclaration, [id] => .ok (.bind span (Ident.ofNode id) none)
    | .variableDeclaration, id :: init :: _ => do
      return .bind span (Ident.ofNode id) (some (← Expr.ofNode init))
    | .printStatement, value :: _ => do return .print span (← Expr.ofNode value)
    | .returnStatement, [] => .ok (.ret span none)
    | .returnStatement, value :: _ => do return .ret span (some (← Expr.ofNode value))
    | .ifStatement, [test] => do
      let _ ← Expr.ofNode test
      .error (Misshape.missingChild.at rule span)
    | .ifStatement, [test, consequent] => do
      return .cond span (← Expr.ofNode test) (← Stmt.ofNode consequent) none
    | .ifStatement, test :: consequent :: alternative :: _ => do
      return .cond span (← Expr.ofNode test) (← Stmt.ofNode consequent)
        (some (← Stmt.ofNode alternative))
    | .blockStatement, body => do return .block span (← Stmt.allOfNodes body)
    | .expressionStatement, value :: _ => do return .expr span (← Expr.ofNode value)
    | .variableDeclaration, [] | .printStatement, [] | .ifStatement, []
    | .expressionStatement, [] => .error (Misshape.missingChild.at rule span)
    | _, _ => .error (Misshape.unknownStatement.at rule span)
  | ⟨rule, span, _, []⟩ => .error (Misshape.missingChild.at rule span)

/-- Reads statements. The node of the end of the input is passed over. -/
def Stmt.allOfNodes : List Node → Except Error (List Stmt)
  | ⟨rule, span, text, children⟩ :: ns =>
    match rule with
    | .statement => do
      let s ← Stmt.ofNode ⟨rule, span, text, children⟩
      return s :: (← Stmt.allOfNodes ns)
    | .endOfInput => Stmt.allOfNodes ns
    | _ => .error (Misshape.notStatement.at rule span)
  | [] => .ok []

end

namespace Program

/-- Matches a script against the grammar. -/
def matchScript (script : List Char) : Except Error (List Tree) :=
  match Rule.script.run script with
  | some m => .ok m.parts
  | none =>
    let a := Rule.script.attempts script
    .error ((ScriptFault.unmatched a.message).at ⟨a.position, a.position⟩)

/-- Reads a program off the nodes of a match. -/
def ofNodes : List Node → Except Error Program
  | script :: _ => do return ⟨script.span, ← Stmt.allOfNodes script.children⟩
  | [] => .error (ScriptFault.noScript.at ⟨0, 0⟩)

/-- Reads a script. -/
def read (script : String) : Except Error Program := do
  ofNodes (Tree.locate (← matchScript script.toList))

end Program

end Scoped
