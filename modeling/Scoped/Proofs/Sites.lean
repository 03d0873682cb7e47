import Scoped.Program.Basic

/-!
# The places of a program

`Program.sites` lists what a program is made of, expressions, statements and parameters, in
the order in which they stand in the text, from the outside in. Each comes with the blocks,
function bodies and initializers around it, so that what is local, and what is part of the
initializer of a variable, can be said of a place without walking through the program again.
-/

namespace Scoped

/-- What can be around a place. -/
inductive Frame where
  | block
  | body
  /-- The initializer of a variable. -/
  | init (x : String)
deriving DecidableEq, Repr

/-- What stands at a place. -/
inductive Item where
  | expr (e : Expr)
  | stmt (s : Stmt)
  /-- A parameter, with those of the same function that stand before it. -/
  | param (before : List Ident) (p : Ident)

/-- The function that is declared or written as an expression at a place. -/
def Item.function? : Item → Option FunctionDef
  | expr (.function d) | stmt (.function d) => some d
  | _ => none

/-- A place of a program. -/
structure Site where
  /-- What is around the place, the innermost first. -/
  frames : List Frame
  item : Item

/-- The parameters of a function after those of `before`. -/
def Ident.sites (frames : List Frame) (before : List Ident) : List Ident → List Site
  | [] => []
  | p :: ps => ⟨frames, .param before p⟩ :: sites frames (before ++ [p]) ps

mutual

/-- The places of an expression. -/
def Expr.sites (frames : List Frame) : Expr → List Site
  | .literal span l => [⟨frames, .expr (.literal span l)⟩]
  | .ident id => [⟨frames, .expr (.ident id)⟩]
  | .assign span target e => ⟨frames, .expr (.assign span target e)⟩ :: e.sites frames
  | .unary span op e => ⟨frames, .expr (.unary span op e)⟩ :: e.sites frames
  | .binary span op l r =>
    ⟨frames, .expr (.binary span op l r)⟩ :: (l.sites frames ++ r.sites frames)
  | .logical span op l r =>
    ⟨frames, .expr (.logical span op l r)⟩ :: (l.sites frames ++ r.sites frames)
  | .call span f args =>
    ⟨frames, .expr (.call span f args)⟩ :: (f.sites frames ++ Expr.sitesAll frames args)
  | .function d => ⟨frames, .expr (.function d)⟩ :: d.sites frames

/-- The places of some expressions. -/
def Expr.sitesAll (frames : List Frame) : List Expr → List Site
  | [] => []
  | e :: es => e.sites frames ++ Expr.sitesAll frames es

/-- The places of a statement. -/
def Stmt.sites (frames : List Frame) : Stmt → List Site
  | .expr span e => ⟨frames, .stmt (.expr span e)⟩ :: e.sites frames
  | .print span e => ⟨frames, .stmt (.print span e)⟩ :: e.sites frames
  | .ret span none => [⟨frames, .stmt (.ret span none)⟩]
  | .ret span (some e) => ⟨frames, .stmt (.ret span (some e))⟩ :: e.sites frames
  | .block span body => ⟨frames, .stmt (.block span body)⟩ :: Stmt.sitesAll (.block :: frames) body
  | .bind span id none => [⟨frames, .stmt (.bind span id none)⟩]
  | .bind span id (some e) =>
    ⟨frames, .stmt (.bind span id (some e))⟩ :: e.sites (.init id.name :: frames)
  | .function d => ⟨frames, .stmt (.function d)⟩ :: d.sites frames
  | .cond span test a none =>
    ⟨frames, .stmt (.cond span test a none)⟩ :: (test.sites frames ++ a.sites frames)
  | .cond span test a (some b) =>
    ⟨frames, .stmt (.cond span test a (some b))⟩ ::
      (test.sites frames ++ (a.sites frames ++ b.sites frames))

/-- The places of some statements. -/
def Stmt.sitesAll (frames : List Frame) : List Stmt → List Site
  | [] => []
  | s :: ss => s.sites frames ++ Stmt.sitesAll frames ss

/-- The places of a function : its parameters, and its body. -/
def FunctionDef.sites (frames : List Frame) : FunctionDef → List Site
  | .mk _ _ params _ body => Ident.sites frames [] params ++ Stmt.sitesAll (.body :: frames) body

end

/-- The places of a program, in order. -/
def Program.sites (p : Program) : List Site := Stmt.sitesAll [] p.body

end Scoped
