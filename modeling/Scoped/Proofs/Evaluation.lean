import Scoped.Proofs.Simulation

/-!
# Computations by the outcomes of their parts

What an expression or a statement comes to, given what its parts come to. With these lemmas a run
of a given program is followed one construct at a time, without opening the evaluator.
-/

namespace Scoped

variable {call : Function → List Value → Eval Value} {m m' : Machine} {v w : Value} {x : String}
  {span place : Span} {e f : Expr} {s : Stmt} {ss : List Stmt} {j : ScopeId}

theorem Expr.eval_ident_of_resolve? (hj : m.store.resolve? m.scope x = some j)
    (hv : m.store.value? j x = some v) : (Expr.ident ⟨x, place⟩).eval call m = .ok v m := by
  have hget : m.store.get? m.scope x = some v := by rw [Store.get?_eq, hj, Option.bind_some, hv]
  simp only [Expr.eval, Eval.lookup, Store.get, hget]

theorem Expr.eval_literal (l : Literal) :
    (Expr.literal span l).eval call m = .ok (.ofLiteral l) m := by
  rw [Expr.eval]
  rfl

theorem Expr.eval_ident_of_value? (hv : m.store.value? m.scope x = some v) :
    (Expr.ident ⟨x, place⟩).eval call m = .ok v m := by
  have hbinds : m.store.binds m.scope x = true := by rw [Store.binds_eq, hv]; rfl
  exact Expr.eval_ident_of_resolve? (Store.resolve?_self hbinds) hv

/-- An operator is applied to what its operands evaluate to. -/
theorem Expr.eval_unary_of_operand {op : UnaryOp} {a : Value} (he : e.eval call m = .ok a m') :
    (Expr.unary span op e).eval call m = Eval.ofExcept span (op.apply a) m' := by
  rw [Expr.eval, Eval.bind_ok he]

theorem Expr.eval_unary_of_error {op : UnaryOp} {err : Error}
    (he : e.eval call m = .error err m') : (Expr.unary span op e).eval call m = .error err m' := by
  rw [Expr.eval, Eval.bind_error he]

theorem Expr.eval_binary_of_operands {op : BinaryOp} {a b : Value} {m'' : Machine}
    (he : e.eval call m = .ok a m') (hf : f.eval call m' = .ok b m'') :
    (Expr.binary span op e f).eval call m = Eval.ofExcept span (op.apply a b) m'' := by
  rw [Expr.eval, Eval.bind_ok he, Eval.bind_ok hf]

theorem Expr.eval_binary_of_ok {op : BinaryOp} {a b : Value} {m'' : Machine}
    (he : e.eval call m = .ok a m') (hf : f.eval call m' = .ok b m'')
    (hop : op.apply a b = .ok v) : (Expr.binary span op e f).eval call m = .ok v m'' := by
  rw [Expr.eval_binary_of_operands he hf, hop]
  rfl

/-- The operand on the left is evaluated first. -/
theorem Expr.eval_binary_of_error_left {op : BinaryOp} {err : Error}
    (he : e.eval call m = .error err m') :
    (Expr.binary span op e f).eval call m = .error err m' := by
  rw [Expr.eval, Eval.bind_error he]

theorem Expr.eval_binary_of_error_right {op : BinaryOp} {a : Value} {err : Error} {m'' : Machine}
    (he : e.eval call m = .ok a m') (hf : f.eval call m' = .error err m'') :
    (Expr.binary span op e f).eval call m = .error err m'' := by
  rw [Expr.eval, Eval.bind_ok he, Eval.bind_error hf]

theorem Expr.eval_assign_of_ok (he : e.eval call m = .ok v m')
    (hj : m'.store.resolve? m'.scope x = some j) :
    (Expr.assign span ⟨x, place⟩ e).eval call m =
      .ok v { m' with store := m'.store.bind j x v } := by
  rw [Expr.eval, Eval.bind_ok he]
  rw [Eval.assign_eq, hj]
  rfl

theorem Expr.eval_call_of_ok {g : Function} {m'' : Machine}
    (hf : f.eval call m = .ok (.function g) m') (hcall : call g [] m' = .ok v m'') :
    (Expr.call span f []).eval call m = .ok v m'' := by
  rw [Expr.eval, Eval.bind_ok hf, Expr.evalAll]
  have horAt : Eval.orAt span (call g []) m' = .ok v m'' := by simp only [Eval.orAt, hcall]
  exact horAt

theorem Stmt.exec_expr_of_ok (he : e.eval call m = .ok v m') :
    (Stmt.expr span e).exec call m = .ok .normal m' := by
  rw [Stmt.exec, Eval.bind_ok he]
  rfl

theorem Stmt.exec_print_of_ok (he : e.eval call m = .ok v m') :
    (Stmt.print span e).exec call m =
      .ok .normal { m' with printed := m'.printed.push v.render } := by
  rw [Stmt.exec, Eval.bind_ok he]
  rfl

theorem Stmt.exec_ret_of_ok (he : e.eval call m = .ok v m') :
    (Stmt.ret span (some e)).exec call m = .ok (.returned v) m' := by
  rw [Stmt.exec, Eval.bind_ok he]
  rfl

theorem Stmt.exec_bind_of_ok (he : e.eval call m = .ok v m')
    (hx : m'.store.refuses m'.scope x = false) :
    (Stmt.bind span ⟨x, place⟩ (some e)).exec call m =
      .ok .normal { m' with store := m'.store.bind m'.scope x v } := by
  rw [Stmt.exec, Eval.bind_ok he,
    Eval.bind_ok (x := Eval.declare ⟨x, place⟩ v) (if_neg (by simp [hx]))]
  rfl

theorem Stmt.exec_function_of_ok {d : FunctionDef} (hd : d.id = some ⟨x, place⟩)
    (hx : m.store.refuses m.scope x = false) :
    let f : Value := .function (.closure m.store.nextIdentity d m.scope)
    (Stmt.function d).exec call m =
      .ok .normal { m with store := m.store.takeIdentity.bind m.scope x f } := by
  intro f
  have hx' : m.store.takeIdentity.refuses m.scope x = false := hx
  rw [Stmt.exec, Eval.bind_ok (x := Eval.closure d) rfl, hd]
  exact Eval.bind_ok (x := Eval.declare ⟨x, place⟩ f) (if_neg (by simp [hx']))

theorem Stmt.execAll_cons_of_normal (h : s.exec call m = .ok .normal m') :
    Stmt.execAll call (s :: ss) m = Stmt.execAll call ss m' := by
  rw [Stmt.execAll, Eval.bind_ok h]

theorem Stmt.execAll_cons_of_returned (h : s.exec call m = .ok (.returned v) m') :
    Stmt.execAll call (s :: ss) m = .ok (.returned v) m' := by
  rw [Stmt.execAll, Eval.bind_ok h]
  rfl

end Scoped
