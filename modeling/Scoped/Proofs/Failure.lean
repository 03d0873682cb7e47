import Scoped.Proofs.Coupling
import Scoped.Proofs.Termination

/-!
# Failures pass outward

Nothing catches an error. When a task that another one asks for fails, the other one fails
too, with the same cause and, if the error has one, the same span (`Error.Keeps`): a call gives
its span only to errors that have none. So a task that comes up in a run and fails makes the
run fail (`Task.Needs.run_error`).

The other way round, a task that fails either raised the error itself or asked for a task
that failed with it (`Plan.raised_or_asked`). `Plan.Raises` says both of a plan, without carrying
it out, and `Task.raises_plan` is the case analysis over the constructs.
-/

namespace Scoped

variable {α β : Type} {host : Host} {m m' : Machine}

/-! ## Errors on their way out -/

/-- An error and what it is seen as from further out : the cause is the same, and so is the span
if there is one. -/
structure Error.Keeps (e e' : Error) : Prop where
  cause : e'.cause = e.cause
  span : ∀ s, e.span = some s → e'.span = some s

namespace Error

variable {e e' e'' : Error}

theorem Keeps.refl (e : Error) : e.Keeps e := ⟨rfl, fun _ h => h⟩

theorem Keeps.trans (h : e.Keeps e') (h' : e'.Keeps e'') : e.Keeps e'' :=
  ⟨h'.cause.trans h.cause, fun s hs => h'.span s (h.span s hs)⟩

theorem Keeps.eq {s : Span} (h : e.Keeps e') (hs : e.span = some s) : e' = e := by
  have hspan := h.span s hs
  have hcause := h.cause
  cases e
  cases e'
  simp_all

theorem keeps_locatedIfNot (e : Error) (s : Span) : e.Keeps (e.locatedIfNot s) :=
  ⟨rfl, fun t ht => by simp [locatedIfNot, ht]⟩

end Error

namespace Plan

/-- What the plan fails with by itself, and the errors of what it asks for pass through it. -/
def Raises (R : Cause → Prop) : Plan α → Prop
  | .done r => ∀ e m, r = .error e m → R e.cause
  | .walk _ _ _ next => ∀ j, (next j).Raises R
  | .ask _ _ next => (∀ b m, (next (.ok b m)).Raises R) ∧
    ∀ e m, ∃ e' m', next (.error e m) = .done (.error e' m') ∧ e.Keeps e'

variable {R : Cause → Prop}

theorem raises_after {t : Task β} {next : β → Machine → Plan α}
    (h : ∀ b m, (next b m).Raises R) : (after t m next).Raises R :=
  ⟨h, fun e m => ⟨e, m, rfl, .refl e⟩⟩

@[simp]
theorem raises_ok (a : α) (m : Machine) : (Plan.done (.ok a m)).Raises R := by
  intro e m' h
  cases h

/-- The last task of a plan. -/
@[simp]
theorem raises_ask_done (t : Task α) (m : Machine) : (Plan.ask t m .done).Raises R :=
  ⟨raises_ok, fun e m => ⟨e, m, rfl, .refl e⟩⟩

theorem raises_error {c : Cause} {s : Option Span} (h : R c) :
    (Plan.done (.error ⟨c, s⟩ m) : Plan α).Raises R := by
  rintro e m' ⟨⟩
  exact h

/-- A plan fails if a task that it asks for fails. -/
theorem run_error_of_asks {γ : Type} {t₀ : Task γ} {m₀ : Machine} {t : Task β} {p : Plan α}
    {e : Error} (ha : p.Asks host t m) (hp : p.Raises R) (halong : p.Along host (t₀.Below m₀))
    (ht : t.run host m = .error e m') : ∃ e' m'', p.run host = .error e' m'' ∧ e.Keeps e' := by
  induction ha with
  | now =>
    obtain ⟨e', m'', hnext, hkeeps⟩ := hp.2 e m'
    exact ⟨e', m'', by rw [Plan.run, ht, hnext, Plan.run], hkeeps⟩
  | walk hw _ ih =>
    rw [(Store.walks_iff halong.1).1 hw] at ih
    exact ih (hp _) halong.2
  | @later _ t' m₁ q next hq hasks ih =>
    have hq : q = t'.run host m₁ := (Task.ends_iff _ halong.1.fits).1 hq
    cases hr : t'.run host m₁ with
    | ok b m₂ =>
      rw [hq] at ih
      rw [Plan.run]
      have halong := halong.2
      rw [hr] at ih halong ⊢
      exact ih (hp.1 b m₂) halong
    | error e₁ m₂ =>
      -- nothing is asked for after a failure
      obtain ⟨e', m'', hnext, -⟩ := hp.2 e₁ m₂
      rw [hq, hr, hnext] at hasks
      cases hasks

/-- A plan that fails raised the error itself, or asked for a task that failed with it. -/
theorem raised_or_asked {γ : Type} {t₀ : Task γ} {m₀ : Machine} {e : Error} : ∀ {p : Plan α},
    p.Raises R → p.Along host (t₀.Below m₀) → p.run host = .error e m' →
    R e.cause ∨ ∃ (β : Type) (t : Task β) (m : Machine) (e' : Error) (m'' : Machine),
      p.Asks host t m ∧ t.run host m = .error e' m'' ∧ e'.Keeps e
  | .done r, hp, _, h => .inl (hp e m' h)
  | .walk s x i next, hp, ⟨hs, hnext⟩, h => by
    rcases raised_or_asked (hp _) hnext h with hR | ⟨β, t, m, e', m'', hasks, hrest⟩
    · exact .inl hR
    · exact .inr ⟨β, t, m, e', m'', .walk ((Store.walks_iff hs).2 rfl) hasks, hrest⟩
  | .ask t m next, hp, ⟨ht, hnext⟩, h => by
    rw [Plan.run] at h
    cases hr : t.run host m with
    | ok b m₁ =>
      rw [hr] at h hnext
      rcases raised_or_asked (hp.1 b m₁) hnext h with hR | ⟨β, t', m₂, e', m'', hasks, hrest⟩
      · exact .inl hR
      · exact .inr ⟨β, t', m₂, e', m'', .later ((t.ends_iff ht.fits).2 hr.symm) hasks, hrest⟩
    | error e₁ m₁ =>
      obtain ⟨e', m'', hdone, hkeeps⟩ := hp.2 e₁ m₁
      rw [hr, hdone, Plan.run] at h
      cases h
      exact .inr ⟨_, t, m, e₁, m₁, .now, hr, hkeeps⟩

end Plan

/-! ## What tasks raise themselves -/

/-- A call with as many arguments as the function takes, while no more calls may become
active. -/
def Task.AtLimit : {α : Type} → Task α → Machine → Prop
  | _, .call f args, m => args.length = f.arity ∧ m.config.maxCallDepth ≤ m.depth
  | _, .expr _, _ | _, .exprs _, _ | _, .stmt _, _ | _, .stmts _, _ => False

/-- A stack overflow has the limit, and only a call at the limit raises it. -/
def Task.Allows (t : Task α) (m : Machine) (c : Cause) : Prop :=
  ∀ k, c = .stackOverflow k → k = m.config.maxCallDepth ∧ t.AtLimit m

namespace Task

variable {t : Task α} {c : Cause}

theorem Allows.of_isTypeError (h : c.IsTypeError) : t.Allows m c := by
  obtain ⟨fault, rfl⟩ := h
  rintro k ⟨⟩

theorem allows_redeclaration (x : String) : t.Allows m (.redeclaration x) := by
  rintro k ⟨⟩

end Task

namespace Plan

variable {γ : Type} {t : Task γ} {m₀ : Machine}

theorem raises_ofExcept (span : Span) {r : Except Cause Value}
    (h : ∀ c, r = .error c → c.IsTypeError) :
    (Plan.done (Eval.ofExcept span r m)).Raises (t.Allows m₀) := by
  cases r with
  | ok v => exact raises_ok v m
  | error c => exact raises_error (.of_isTypeError (h c rfl))

theorem raises_declareIn (k : ScopeId) (id : Ident) (v : Value) (e : Error)
    (h : Eval.declareIn k id v m = .error e m') : t.Allows m₀ e.cause := by
  unfold Eval.declareIn at h
  split at h
  · cases h
    exact Task.allows_redeclaration id.name
  · cases h

theorem raises_declareAll (k : ScopeId) (e : Error) : ∀ (ids : List Ident) (vs : List Value)
    {m : Machine}, Eval.declareAll k ids vs m = .error e m' → t.Allows m₀ e.cause
  | [], _, _, h | _ :: _, [], _, h => by cases h
  | id :: ids, v :: vs, m, h => by
    simp only [Eval.declareAll] at h
    cases hd : Eval.declareIn k id v m with
    | ok u m₁ =>
      rw [Eval.bind_ok hd] at h
      exact raises_declareAll k e ids vs h
    | error e₁ m₁ =>
      rw [Eval.bind_error hd] at h
      cases h
      exact raises_declareIn k id v e hd

/-- A declaration, with which a statement ends. -/
theorem raises_declare (id : Ident) (v : Value) :
    (Plan.done ((do Eval.declare id v; pure .normal : Eval Completion) m)).Raises
      (t.Allows m₀) := by
  intro e m₁ h
  cases hd : Eval.declare id v m with
  | ok u m₂ =>
    rw [Eval.bind_ok hd] at h
    cases h
  | error e₂ m₂ =>
    rw [Eval.bind_error hd] at h
    cases h
    exact raises_declareIn m.scope id v e hd

theorem raises_expr (e : Expr) (m : Machine) :
    (e.plan m).Raises ((Task.expr e).Allows m) := by
  cases e with
  | literal => exact raises_ok _ _
  | function => exact raises_ok _ _
  | ident id =>
    intro j
    dsimp only
    split
    · exact raises_ok _ _
    · refine raises_error ?_
      rintro k ⟨⟩
  | assign span target e =>
    refine raises_after fun v m₁ j => ?_
    dsimp only
    split
    · exact raises_ok _ _
    · refine raises_error ?_
      rintro k ⟨⟩
  | unary span op e =>
    exact raises_after fun v m₁ => raises_ofExcept span fun _ => UnaryOp.isTypeError_apply
  | binary span op l r =>
    exact raises_after fun a m₁ => raises_after fun b m₂ =>
      raises_ofExcept span fun _ => BinaryOp.isTypeError_apply
  | logical span op l r =>
    refine raises_after fun a m₁ => ?_
    split
    · exact raises_ok _ _
    · exact raises_ask_done _ _
  | call span f args =>
    refine raises_after fun v m₁ => ?_
    cases v with
    | nil | bool | number | string =>
      refine raises_error ?_
      rintro k ⟨⟩
    | function f =>
      refine raises_after fun vs m₂ => ⟨fun b m₃ => raises_ok _ _, fun e m₃ => ?_⟩
      exact ⟨_, m₃, rfl, e.keeps_locatedIfNot span⟩

theorem raises_exprs (es : List Expr) (m : Machine) :
    (Expr.planAll es m).Raises ((Task.exprs es).Allows m) := by
  cases es with
  | nil => exact raises_ok _ _
  | cons e es => exact raises_after fun v m₁ => raises_after fun vs m₂ => raises_ok _ _

theorem raises_stmt (s : Stmt) (m : Machine) :
    (s.plan m).Raises ((Task.stmt s).Allows m) := by
  cases s with
  | expr _ e => exact raises_after fun v m₁ => raises_ok _ _
  | print _ e => exact raises_after fun v m₁ => raises_ok _ _
  | ret _ e =>
    cases e with
    | none => exact raises_ok _ _
    | some e => exact raises_after fun v m₁ => raises_ok _ _
  | block _ body => exact ⟨fun b m₁ => raises_ok _ _, fun e m₁ => ⟨e, _, rfl, .refl e⟩⟩
  | bind _ id e =>
    cases e with
    | none => exact raises_declare id .nil
    | some e => exact raises_after fun v m₁ => raises_declare id v
  | function d =>
    simp only [Stmt.plan]
    cases d.id with
    | none => exact raises_ok _ _
    | some id => exact raises_declare id _
  | cond _ test a b =>
    cases b with
    | none =>
      refine raises_after fun v m₁ => ?_
      split
      · exact raises_ask_done _ _
      · exact raises_ok _ _
    | some b =>
      refine raises_after fun v m₁ => ?_
      split
      · exact raises_ask_done _ _
      · exact raises_ask_done _ _

theorem raises_stmts (ss : List Stmt) (m : Machine) :
    (Stmt.planAll ss m).Raises ((Task.stmts ss).Allows m) := by
  cases ss with
  | nil => exact raises_ok _ _
  | cons s ss =>
    refine raises_after fun c m₁ => ?_
    cases c with
    | normal => exact raises_ask_done _ _
    | returned v => exact raises_ok _ _

theorem raises_call (f : Function) (args : List Value) (m : Machine) :
    (host.planCall f args m).Raises ((Task.call f args).Allows m) := by
  rw [Host.planCall.eq_def]
  split
  · refine raises_error ?_
    rintro k ⟨⟩
  next harity =>
  split
  · next hlimit =>
    refine raises_error ?_
    rintro k ⟨⟩
    exact ⟨rfl, not_not.1 harity, hlimit⟩
  cases f with
  | native _ n =>
    dsimp only
    split
    · exact raises_ok _ _
    · next hc => exact raises_error (.of_isTypeError (Native.isTypeError_apply hc))
  | closure _ d k =>
    dsimp only
    split
    · refine ⟨fun c m₂ => ?_, fun e m₂ => ⟨e, _, rfl, .refl e⟩⟩
      cases c <;> exact raises_ok _ _
    · next e m₁ hs =>
      rintro e' m₂ ⟨⟩
      exact raises_declareAll _ e d.params args hs

end Plan

theorem Task.raises_plan (t : Task α) (m : Machine) :
    (t.plan host m).Raises (t.Allows m) := by
  cases t with
  | expr e => exact Plan.raises_expr e m
  | exprs es => exact Plan.raises_exprs es m
  | stmt s => exact Plan.raises_stmt s m
  | stmts ss => exact Plan.raises_stmts ss m
  | call f args => exact Plan.raises_call f args m

/-- If a task that comes up fails, so does the task that it comes up in, and the error keeps its
cause and the span that it has. -/
theorem Task.Needs.run_error {t₀ : Task α} {m₀ : Machine} {t : Task β} {e : Error}
    (h : t₀.Needs host m₀ t m) (h₀ : t₀.Fits m₀) (ht : t.run host m = .error e m') :
    ∃ e' m'', t₀.run host m₀ = .error e' m'' ∧ e.Keeps e' := by
  induction h generalizing e m' with
  | self => exact ⟨e, m', ht, .refl e⟩
  | @asks _ _ t _ m₁ _ hneeds hasks ih =>
    have halong : (t.plan host m₁).Along host (t.Below m₁) := (hneeds.fits h₀).along
    obtain ⟨e₁, m₂, hrun, hkeeps⟩ := Plan.run_error_of_asks hasks (t.raises_plan m₁) halong ht
    obtain ⟨e', m₃, hrun', hkeeps'⟩ := ih ((t.run_eq host m₁).trans hrun)
    exact ⟨e', m₃, hrun', hkeeps.trans hkeeps'⟩

theorem Run.error_of_ofEnding {r : Ending Completion} {e : Error}
    (h : (Run.ofEnding r).result = .error e) : ∃ m, r = .error e m := by
  cases r with
  | ok c m => cases h
  | error e' m =>
    cases h
    exact ⟨m, rfl⟩

end Scoped
