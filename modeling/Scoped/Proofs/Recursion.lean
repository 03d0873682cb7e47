import Scoped.Proofs.WellFormed

/-!
# The recursion of the evaluator

`Task.plan` takes the recursion of the evaluator apart : it says which tasks the evaluation
of a task asks for, on which machines, and what it makes of their endings, but does not
carry them out. The only counter that it looks at is the number of active calls, which a
call compares with the limit.

`Plan.Ends` carries plans out with nothing to bound it : a task ends in a way if the tasks
that it asks for end, each in some way, and the names that it looks for are found by walks
that end. A task for which this would go on for ever ends in no way at all. `Task.run_eq`
says that the evaluator follows the plans.
-/

namespace Scoped

variable {α β : Type} {m : Machine}

/-- How a computation ended, and the machine that it left. -/
abbrev Ending (α : Type) := EStateM.Result Error Machine α

namespace Ending

/-- An ending as seen from outside a scope. -/
def leaving (outside : ScopeId) : Ending α → Ending α
  | .ok a m => .ok a (m.enter outside)
  | .error e m => .error e (m.enter outside)

/-- An ending as seen from outside a call. -/
def fromCall : Ending α → Ending α
  | .ok a m => .ok a m.shallower
  | .error e m => .error e m.shallower

/-- The ending of a call whose body ended so. -/
def ofBody : Ending Completion → Ending Value
  | .ok .normal m => .ok .nil m
  | .ok (.returned v) m => .ok v m
  | .error e m => .error e m

/-- An error arises at a span unless it has one. -/
def locatedIfNot (span : Span) : Ending α → Ending α
  | .ok a m => .ok a m
  | .error e m => .error (e.locatedIfNot span) m

end Ending

/-! ## Tasks and plans -/

/-- What the evaluator can be asked for, by the type of its result. -/
inductive Task : Type → Type
  | expr (e : Expr) : Task Value
  | exprs (es : List Expr) : Task (List Value)
  | stmt (s : Stmt) : Task Completion
  | stmts (ss : List Stmt) : Task Completion
  | call (f : Function) (args : List Value) : Task Value

/-- What a task comes to : an ending, or a walk or another task and what to do next with what
that gives. -/
inductive Plan (α : Type) : Type 1
  | done (r : Ending α) : Plan α
  | walk (s : Store) (x : String) (i : ScopeId) (next : Option ScopeId → Plan α) : Plan α
  | ask {β : Type} (t : Task β) (m : Machine) (next : Ending β → Plan α) : Plan α

/-- A task, and if it gives a value, what comes next. -/
def Plan.after (t : Task β) (m : Machine) (next : β → Machine → Plan α) : Plan α :=
  .ask t m fun
    | .ok b m => next b m
    | .error e m => .done (.error e m)

open Plan (after)

/-- The machine after a scope was opened. -/
def Machine.opened (m : Machine) (i : ScopeId) (kind : ScopeKind) : Machine :=
  { m with store := m.store.openInside i kind }

/-- What an expression asks for. Its names are looked for by walks. -/
def Expr.plan : Expr → Machine → Plan Value
  | .literal _ l, m => .done (.ok (.ofLiteral l) m)
  | .ident id, m => .walk m.store id.name m.scope fun j =>
    match j.bind fun j => m.store.value? j id.name with
    | some v => .done (.ok v m)
    | none => .done (.error ⟨.undefinedVariable id.name, id.span⟩ m)
  | .assign span target e, m => after (.expr e) m fun v m =>
    .walk m.store target.name m.scope fun
      | some j => .done (.ok v { m with store := m.store.bind j target.name v })
      | none => .done (.error ⟨.undefinedVariable target.name, span⟩ m)
  | .unary span op e, m => after (.expr e) m fun v m =>
    .done (Eval.ofExcept span (op.apply v) m)
  | .binary span op l r, m => after (.expr l) m fun a m => after (.expr r) m fun b m =>
    .done (Eval.ofExcept span (op.apply a b) m)
  | .logical _ op l r, m => after (.expr l) m fun a m =>
    if op.decidedBy a then .done (.ok a m) else .ask (.expr r) m .done
  | .call span f args, m => after (.expr f) m fun v m =>
    match v with
    | .function f => after (.exprs args) m fun vs m =>
      .ask (.call f vs) m fun r => .done (r.locatedIfNot span)
    | v => .done (.error ⟨.notCallable v.type.name, span⟩ m)
  | .function d, m => .done (Eval.closure d m)

def Expr.planAll : List Expr → Machine → Plan (List Value)
  | [], m => .done (.ok [] m)
  | e :: es, m => after (.expr e) m fun v m => after (.exprs es) m fun vs m =>
    .done (.ok (v :: vs) m)

/-- What a statement asks for. -/
def Stmt.plan : Stmt → Machine → Plan Completion
  | .expr _ e, m => after (.expr e) m fun _ m => .done (.ok .normal m)
  | .print _ e, m => after (.expr e) m fun v m =>
    .done ((do Eval.print v.render; pure .normal : Eval Completion) m)
  | .ret _ none, m => .done (.ok (.returned .nil) m)
  | .ret _ (some e), m => after (.expr e) m fun v m => .done (.ok (.returned v) m)
  | .block _ body, m =>
    .ask (.stmts body) ((m.opened m.scope .block).enter m.store.nextScope)
      fun r => .done (r.leaving m.scope)
  | .bind _ id none, m => .done ((do Eval.declare id .nil; pure .normal : Eval Completion) m)
  | .bind _ id (some e), m => after (.expr e) m fun v m =>
    .done ((do Eval.declare id v; pure .normal : Eval Completion) m)
  | .function d, m =>
    match d.id with
    | some id =>
      .done ((do let f ← Eval.closure d; Eval.declare id f; pure .normal : Eval Completion) m)
    | none => .done ((do let _ ← Eval.closure d; pure .normal : Eval Completion) m)
  | .cond _ test a none, m => after (.expr test) m fun v m =>
    if v.truthy then .ask (.stmt a) m .done else .done (.ok .normal m)
  | .cond _ test a (some b), m => after (.expr test) m fun v m =>
    if v.truthy then .ask (.stmt a) m .done else .ask (.stmt b) m .done

def Stmt.planAll : List Stmt → Machine → Plan Completion
  | [], m => .done (.ok .normal m)
  | s :: ss, m => after (.stmt s) m fun c m =>
    match c with
    | .normal => .ask (.stmts ss) m .done
    | .returned v => .done (.ok (.returned v) m)

/-- The machine in which the body of a function starts, or the failure to bind a parameter. -/
def FunctionDef.start (d : FunctionDef) (captured : ScopeId) (args : List Value) (m : Machine) :
    Ending Unit :=
  Eval.declareAll m.store.nextScope d.params args (m.opened captured (.call d.name?))

/-- What a call asks for, once the number of arguments and then the number of active calls have
been checked : the body of the function, with one more active call. -/
def Host.planCall (host : Host) (f : Function) (args : List Value) (m : Machine) : Plan Value :=
  if args.length ≠ f.arity then .done (.error ⟨.arityMismatch f.arity args.length, none⟩ m)
  else if m.config.maxCallDepth ≤ m.depth then
    .done (.error ⟨.stackOverflow m.config.maxCallDepth, none⟩ m)
  else
    match f with
    | .native _ n =>
      match n.apply host.clock args with
      | .ok v => .done (.ok v m.deeper.shallower)
      | .error c => .done (.error ⟨c, none⟩ m.deeper.shallower)
    | .closure _ d captured =>
      match d.start captured args m.deeper with
      | .ok () m₁ =>
        .ask (.stmts d.body) (m₁.enter m.store.nextScope)
          fun r => .done (r.leaving m₁.scope).ofBody.fromCall
      | .error e m₁ => .done (.error e m₁.shallower)

/-- What a task asks for. -/
def Task.plan (host : Host) : {α : Type} → Task α → Machine → Plan α
  | _, .expr e => e.plan
  | _, .exprs es => Expr.planAll es
  | _, .stmt s => s.plan
  | _, .stmts ss => Stmt.planAll ss
  | _, .call f args => host.planCall f args

/-- Carrying a plan out. -/
inductive Plan.Ends (host : Host) : {α : Type} → Plan α → Ending α → Prop
  | done {α : Type} (r : Ending α) : Ends host (.done r) r
  | walk {α : Type} {s : Store} {x : String} {i : ScopeId} {j : Option ScopeId}
    {next : Option ScopeId → Plan α} {r : Ending α} : s.Walks x i j → Ends host (next j) r →
    Ends host (.walk s x i next) r
  | ask {α β : Type} {t : Task β} {m : Machine} {q : Ending β} {next : Ending β → Plan α}
    {r : Ending α} : Ends host (t.plan host m) q → Ends host (next q) r →
    Ends host (.ask t m next) r

/-- A task ends so on a machine. -/
def Task.Ends (host : Host) (t : Task α) (m : Machine) (r : Ending α) : Prop :=
  (t.plan host m).Ends host r

/-! ## The evaluator follows the plans -/

/-- What the evaluator makes of a task. -/
def Task.run (host : Host) : {α : Type} → Task α → Machine → Ending α
  | _, .expr e => e.eval host.call
  | _, .exprs es => Expr.evalAll host.call es
  | _, .stmt s => s.exec host.call
  | _, .stmts ss => Stmt.execAll host.call ss
  | _, .call f args => host.call f args

/-- A plan carried out by the evaluator. -/
def Plan.run (host : Host) : Plan α → Ending α
  | .done r => r
  | .walk s x i next => (next (s.resolve? i x)).run host
  | .ask t m next => (next (t.run host m)).run host

variable (host : Host)

theorem Plan.run_after (t : Task β) (m : Machine) (next : β → Machine → Plan α) :
    (Plan.after t m next).run host =
      match t.run host m with
      | .ok b m => (next b m).run host
      | .error e m => .error e m := by
  rw [Plan.after, Plan.run]
  cases t.run host m <;> rfl

/-- Binding computations follows a plan that asks for the first one. -/
theorem Plan.bind_eq_run_after {t : Task β} {f : β → Eval α} {next : β → Machine → Plan α}
    (h : ∀ b m, f b m = (next b m).run host) (m : Machine) :
    ((t.run host : Eval β) >>= f) m = (Plan.after t m next).run host := by
  rw [Plan.run_after]
  cases ht : t.run host m with
  | ok b m' =>
    rw [Eval.bind_ok ht]
    exact h b m'
  | error e m' => rw [Eval.bind_error ht]

open Plan (bind_eq_run_after)

theorem Eval.inCall_eq (x : Eval α) (m : Machine) :
    Eval.inCall x m = Ending.fromCall (x m.deeper) := rfl

theorem Expr.eval_eq_run_plan (e : Expr) (m : Machine) :
    e.eval host.call m = (e.plan m).run host := by
  cases e with
  | literal => simp only [Expr.eval, Expr.plan, Plan.run]; rfl
  | ident id =>
    simp only [Expr.eval, Expr.plan, Plan.run, Eval.lookup, Store.get, Store.get?_eq]
    cases (m.store.resolve? m.scope id.name).bind fun j => m.store.value? j id.name <;> rfl
  | assign span target e =>
    simp only [Expr.eval, Expr.plan]
    refine bind_eq_run_after host (t := .expr e) (fun v m => ?_) m
    simp only [Eval.assign_eq, Plan.run]
    cases m.store.resolve? m.scope target.name <;> rfl
  | unary span op e =>
    simp only [Expr.eval, Expr.plan]
    exact bind_eq_run_after host (t := .expr e) (fun _ _ => by rfl) m
  | binary span op l r =>
    simp only [Expr.eval, Expr.plan]
    refine bind_eq_run_after host (t := .expr l) (fun a m => ?_) m
    exact bind_eq_run_after host (t := .expr r) (fun _ _ => by rfl) m
  | logical span op l r =>
    simp only [Expr.eval, Expr.plan]
    refine bind_eq_run_after host (t := .expr l) (fun a m => ?_) m
    split <;> rfl
  | call span f args =>
    simp only [Expr.eval, Expr.plan]
    refine bind_eq_run_after host (t := .expr f) (fun v m => ?_) m
    cases v with
    | function f =>
      refine bind_eq_run_after host (t := .exprs args) (fun vs m => ?_) m
      simp only [Plan.run, Task.run, Eval.orAt]
      cases host.call f vs m <;> rfl
    | nil | bool | number | string => rfl
  | function => simp only [Expr.eval, Expr.plan, Plan.run]

theorem Expr.evalAll_eq_run_planAll (es : List Expr) (m : Machine) :
    Expr.evalAll host.call es m = (Expr.planAll es m).run host := by
  cases es with
  | nil => simp only [Expr.evalAll, Expr.planAll, Plan.run]; rfl
  | cons e es =>
    simp only [Expr.evalAll, Expr.planAll]
    refine bind_eq_run_after host (t := .expr e) (fun v m => ?_) m
    exact bind_eq_run_after host (t := .exprs es) (fun _ _ => by rfl) m

theorem Stmt.exec_eq_run_plan (s : Stmt) (m : Machine) :
    s.exec host.call m = (s.plan m).run host := by
  cases s with
  | expr _ e =>
    simp only [Stmt.exec, Stmt.plan]
    exact bind_eq_run_after host (t := .expr e) (fun _ _ => by rfl) m
  | print _ e =>
    simp only [Stmt.exec, Stmt.plan]
    exact bind_eq_run_after host (t := .expr e) (fun _ _ => by rfl) m
  | ret _ e =>
    cases e with
    | none => simp only [Stmt.exec, Stmt.plan, Plan.run]; rfl
    | some e =>
      simp only [Stmt.exec, Stmt.plan]
      exact bind_eq_run_after host (t := .expr e) (fun _ _ => by rfl) m
  | block _ body =>
    simp only [Stmt.exec, Stmt.plan]
    rw [Eval.bind_ok (x := Eval.openBlock) rfl]
    rfl
  | bind _ id e =>
    cases e with
    | none => simp only [Stmt.exec, Stmt.plan, Plan.run]
    | some e =>
      simp only [Stmt.exec, Stmt.plan]
      exact bind_eq_run_after host (t := .expr e) (fun _ _ => by rfl) m
  | function d =>
    simp only [Stmt.exec, Stmt.plan]
    cases d.id <;> rfl
  | cond _ test a b =>
    cases b with
    | none =>
      simp only [Stmt.exec, Stmt.plan]
      refine bind_eq_run_after host (t := .expr test) (fun v m => ?_) m
      split <;> rfl
    | some b =>
      simp only [Stmt.exec, Stmt.plan]
      refine bind_eq_run_after host (t := .expr test) (fun v m => ?_) m
      split <;> rfl

theorem Stmt.execAll_eq_run_planAll (ss : List Stmt) (m : Machine) :
    Stmt.execAll host.call ss m = (Stmt.planAll ss m).run host := by
  cases ss with
  | nil => simp only [Stmt.execAll, Stmt.planAll, Plan.run]; rfl
  | cons s ss =>
    simp only [Stmt.execAll, Stmt.planAll]
    refine bind_eq_run_after host (t := .stmt s) (fun c m => ?_) m
    cases c <;> rfl

theorem FunctionDef.invoke_eq (d : FunctionDef) (captured : ScopeId) (args : List Value)
    (m : Machine) : d.invoke host.call captured args m =
      match d.start captured args m with
      | .ok () m₁ =>
        ((Task.run host (.stmts d.body) (m₁.enter m.store.nextScope)).leaving m₁.scope).ofBody
      | .error e m₁ => .error e m₁ := by
  rw [FunctionDef.invoke, Eval.bind_ok (x := Eval.openInside captured (.call d.name?)) rfl]
  cases h : d.start captured args m with
  | error e m₁ => exact Eval.bind_error h
  | ok u m₁ =>
    refine (Eval.bind_ok h).trans ?_
    change _ = Ending.ofBody (Eval.inScope m.store.nextScope (Stmt.execAll host.call d.body) m₁)
    cases hr : Eval.inScope m.store.nextScope (Stmt.execAll host.call d.body) m₁ with
    | ok c m₂ =>
      rw [Eval.bind_ok hr]
      cases c <;> rfl
    | error e m₂ =>
      rw [Eval.bind_error hr]
      rfl

theorem Host.call_eq_run_planCall (f : Function) (args : List Value) (m : Machine) :
    host.call f args m = (host.planCall f args m).run host := by
  rw [call_eq, planCall.eq_def]
  split
  · rfl
  split
  · rfl
  rw [Eval.inCall_eq]
  cases f with
  | native _ n =>
    simp only [apply]
    cases n.apply host.clock args <;> rfl
  | closure _ d captured =>
    simp only [apply, FunctionDef.invoke_eq]
    cases d.start captured args m.deeper <;> rfl

/-- The evaluator follows the plans. -/
theorem Task.run_eq (t : Task α) (m : Machine) : t.run host m = (t.plan host m).run host := by
  cases t with
  | expr e => exact e.eval_eq_run_plan host m
  | exprs es => exact Expr.evalAll_eq_run_planAll host es m
  | stmt s => exact s.exec_eq_run_plan host m
  | stmts ss => exact Stmt.execAll_eq_run_planAll host ss m
  | call f args => exact host.call_eq_run_planCall f args m

end Scoped
