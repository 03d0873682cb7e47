import Mathlib.Data.Prod.Lex
import Scoped.Interpreter
import Scoped.Proofs.Recursion

/-!
# Termination

Every task ends in exactly one way, with nothing but the limit of the calls to stop it. The
reason is a measure : the number of calls that may still become active, and for one number,
the size of the syntax. What a task asks for has a smaller measure in the lexicographic order :
parts of an expression or of a statement are smaller, and while parts are evaluated one
after the other the number of calls is the same, as contexts are restored; the body of a
function can be of any size, but is executed with one call less. That holds also for a
function that gets hold of itself, by its name or as an argument.

`Task.ends_iff` says that a task ends, and only in the way that the evaluator computes;
`Program.execute_terminates` states it of programs, with the measure for all tasks that come up.
-/

namespace Scoped

open Simulation

variable {α β : Type} {host : Host} {m m' : Machine}

/-! ## The measure -/

mutual

/-- The size of an expression. The body of a function is no part of it : making the function
does not execute it. -/
@[simp]
def Expr.size : Expr → Nat
  | .literal _ _ | .ident _ | .function _ => 1
  | .assign _ _ e | .unary _ _ e => e.size + 1
  | .binary _ _ l r | .logical _ _ l r => l.size + r.size + 1
  | .call _ f args => f.size + Expr.sizeAll args + 1

/-- The size of a list of expressions. -/
@[simp]
def Expr.sizeAll : List Expr → Nat
  | [] => 1
  | e :: es => e.size + Expr.sizeAll es + 1

end

mutual

/-- The size of a statement. -/
@[simp]
def Stmt.size : Stmt → Nat
  | .ret _ none | .bind _ _ none | .function _ => 1
  | .expr _ e | .print _ e | .ret _ (some e) | .bind _ _ (some e) => e.size + 1
  | .block _ body => Stmt.sizeAll body + 1
  | .cond _ test a none => test.size + a.size + 1
  | .cond _ test a (some b) => test.size + a.size + b.size + 1

/-- The size of a list of statements. -/
@[simp]
def Stmt.sizeAll : List Stmt → Nat
  | [] => 1
  | s :: ss => s.size + Stmt.sizeAll ss + 1

end

namespace Task

/-- The size of the syntax that a task evaluates. -/
@[simp]
def size : {α : Type} → Task α → Nat
  | _, .expr e => e.size
  | _, .exprs es => Expr.sizeAll es
  | _, .stmt s => s.size
  | _, .stmts ss => Stmt.sizeAll ss
  | _, .call _ _ => 0

/-- The measure that goes down : the calls that may still become active, then the syntax. -/
def measure (t : Task α) (m : Machine) : Nat ×ₗ Nat := toLex (m.remaining, t.size)

theorem measure_lt_of_remaining {t : Task α} {t' : Task β} (h : m'.remaining < m.remaining) :
    t'.measure m' < t.measure m :=
  Prod.Lex.toLex_lt_toLex.2 (.inl h)

theorem measure_lt_of_size {t : Task α} {t' : Task β} (hm : m'.remaining = m.remaining)
    (h : t'.size < t.size) : t'.measure m' < t.measure m :=
  Prod.Lex.toLex_lt_toLex.2 (.inr ⟨hm, h⟩)

end Task

/-! ## Tasks in well-formed stores -/

@[simp]
theorem Machine.store_deeper (m : Machine) : m.deeper.store = m.store := rfl

@[simp]
theorem Machine.size_opened (m : Machine) (i : ScopeId) (kind : ScopeKind) :
    (m.opened i kind).store.scopes.size = m.store.scopes.size + 1 :=
  Store.size_openInside ..

/-- A machine that is left when a computation ends. -/
structure Machine.Follows (m m' : Machine) : Prop where
  store : m'.store.WellFormed
  grows : m.store.Grows m'.store
  context : m'.context = m.context

namespace Machine.Follows

theorem refl (h : m.store.WellFormed) : m.Follows m := ⟨h, .refl _, rfl⟩

theorem trans {m'' : Machine} (h : m.Follows m') (h' : m'.Follows m'') : m.Follows m'' :=
  ⟨h'.store, h.grows.trans h'.grows, h'.context.trans h.context⟩

theorem scope_lt (h : m.Follows m') (hm : m.scope < m.store.scopes.size) :
    m'.scope < m'.store.scopes.size := by
  have hscope : m'.scope = m.scope := congrArg Context.scope h.context
  rw [hscope]
  exact hm.trans_le h.grows.size_le

theorem remaining (h : m.Follows m') : m'.remaining = m.remaining :=
  congrArg Context.remaining h.context

theorem of_respects {Q : Store → α → Prop} {x : Eval α} {a : α}
    (h : Invariant.wellFormed.simulation.Respects m.store m.context m.context Q x x)
    (hm : m.store.WellFormed) (hx : x m = .ok a m') : m.Follows m' ∧ Q m'.store a := by
  obtain ⟨hs, hg, hc, hQ⟩ := Invariant.kept h hm
  simp only [Eval.outcome, Eval.final, hx] at hs hg hc hQ
  exact ⟨⟨hs, hg, hc⟩, hQ a rfl⟩

end Machine.Follows

namespace Task

/-- The values that a task starts from. -/
@[simp]
def inputs : {α : Type} → Task α → List Value
  | _, .call f args => .function f :: args
  | _, .expr _ | _, .exprs _ | _, .stmt _ | _, .stmts _ => []

/-- The functions among the values that a task ended with have scopes that exist. -/
def Yields : {α : Type} → Task α → Store → α → Prop
  | _, .expr _, s, v | _, .call _ _, s, v => s.Holds v
  | _, .exprs _, s, vs => ∀ v ∈ vs, s.Holds v
  | _, .stmt _, s, c | _, .stmts _, s, c => ∀ v, c = .returned v → s.Holds v

/-- A task in a scope that exists, about functions whose scopes exist. -/
structure Fits (t : Task α) (m : Machine) : Prop where
  store : m.store.WellFormed
  scope : m.scope < m.store.scopes.size
  inputs : ∀ v ∈ t.inputs, m.store.Holds v

theorem Fits.respects {t : Task α} (ht : t.Fits m) :
    Invariant.wellFormed.simulation.Respects m.store m.context m.context t.Yields (t.run host)
      (t.run host) := by
  have hcall := respectsCalls_call (S := Invariant.wellFormed.simulation) host m.context
  cases t with
  | expr e => exact respects_eval hcall e ht.scope
  | exprs es => exact respects_evalAll hcall es ht.scope
  | stmt s => exact respects_exec hcall s ht.scope
  | stmts ss => exact respects_execAll hcall ss ht.scope
  | call f args =>
    exact hcall (i := m.scope) (ht.inputs _ (List.mem_cons_self ..))
      fun v hv => ht.inputs v (List.mem_cons_of_mem _ hv)

/-! ## What a task asks for is smaller -/

/-- The function that a task calls, whose call is active while what it asks for is evaluated. -/
@[simp]
def called : {α : Type} → Task α → List Function
  | _, .call f _ => [f]
  | _, .expr _ | _, .exprs _ | _, .stmt _ | _, .stmts _ => []

theorem called_eq_nil {t : Task α} (h : 0 < t.size) : t.called = [] := by
  cases t with
  | call => simp at h
  | expr | exprs | stmt | stmts => rfl

/-- A task that fits, and has a smaller measure, with the calls that are active then. -/
structure Below (t : Task α) (m : Machine) (t' : Task β) (m' : Machine) : Prop where
  fits : t'.Fits m'
  lt : t'.measure m' < t.measure m
  config : m'.config = m.config
  depth : m'.depth = m.depth + t.called.length

/-- Where a part of the syntax is evaluated, after other parts. -/
theorem Fits.below {t : Task α} {t' : Task β} (ht : t.Fits m) (h : m.Follows m')
    (hin : ∀ v ∈ t'.inputs, m'.store.Holds v) (hlt : t'.size < t.size) : t.Below m t' m' :=
  ⟨⟨h.store, h.scope_lt ht.scope, hin⟩, measure_lt_of_size h.remaining hlt,
    congrArg Context.config h.context, by
      rw [called_eq_nil (Nat.zero_lt_of_lt hlt)]
      exact congrArg Context.depth h.context⟩

end Task

namespace Plan

/-- What the evaluator asks for on its way through a plan has a property, and its walks are in
well-formed stores. -/
def Along (host : Host) (P : {β : Type} → Task β → Machine → Prop) : Plan α → Prop
  | .done _ => True
  | .walk s x i next => s.WellFormed ∧ (next (s.resolve? i x)).Along host P
  | .ask t m next => P t m ∧ (next (t.run host m)).Along host P

variable {P : {β : Type} → Task β → Machine → Prop}

theorem along_after {t : Task β} {next : β → Machine → Plan α} (ht : P t m) (hfit : t.Fits m)
    (hnext : ∀ b m', m.Follows m' → t.Yields m'.store b → (next b m').Along host P) :
    (after t m next).Along host P := by
  refine ⟨ht, ?_⟩
  cases hr : t.run host m with
  | ok b m' =>
    obtain ⟨hm, hb⟩ := Machine.Follows.of_respects hfit.respects hfit.store hr
    exact hnext b m' hm hb
  | error e m' => trivial

end Plan

open Plan (after)

namespace Task

/-- A part of the syntax that is evaluated after other parts, with what comes next. -/
theorem Fits.along_after {γ : Type} {t : Task α} {t' : Task β} {next : β → Machine → Plan γ}
    (ht : t.Fits m) (h : m.Follows m') (hin : t'.inputs = []) (hlt : t'.size < t.size)
    (hnext : ∀ b m'', m'.Follows m'' → t'.Yields m''.store b →
      (next b m'').Along host (t.Below m)) :
    (after t' m' next).Along host (t.Below m) := by
  have hb : t.Below m t' m' := ht.below h (by rw [hin]; simp) hlt
  exact Plan.along_after hb hb.fits hnext

theorem along_expr {e : Expr} (ht : (Task.expr e).Fits m) :
    (e.plan m).Along host ((Task.expr e).Below m) := by
  have h₀ := Machine.Follows.refl ht.store
  cases e with
  | literal | function => trivial
  | ident id =>
    refine ⟨ht.store, ?_⟩
    dsimp only
    split <;> trivial
  | assign span target e =>
    refine ht.along_after h₀ rfl (by simp) fun v m₁ h₁ _ => ⟨h₁.store, ?_⟩
    dsimp only
    split <;> trivial
  | unary span op e =>
    exact ht.along_after h₀ rfl (by simp) fun v m₁ h₁ _ => trivial
  | binary span op l r =>
    refine ht.along_after h₀ rfl (by simp only [size, Expr.size]; omega) fun a m₁ h₁ _ => ?_
    exact ht.along_after h₁ rfl (by simp only [size, Expr.size]; omega) fun b m₂ h₂ _ => trivial
  | logical span op l r =>
    refine ht.along_after h₀ rfl (by simp only [size, Expr.size]; omega) fun a m₁ h₁ _ => ?_
    split
    · trivial
    · exact ⟨ht.below h₁ (by simp) (by simp only [size, Expr.size]; omega), trivial⟩
  | call span f args =>
    refine ht.along_after h₀ rfl (by simp only [size, Expr.size]; omega) fun v m₁ h₁ hv => ?_
    cases v with
    | nil | bool | number | string => trivial
    | function f =>
      refine ht.along_after h₁ rfl (by simp only [size, Expr.size]; omega) fun vs m₂ h₂ hvs => ?_
      have hf : m₂.store.Holds (.function f) := hv.mono h₂.grows.size_le
      exact ⟨ht.below (h₁.trans h₂) (List.forall_mem_cons.2 ⟨hf, hvs⟩) (by simp),
        trivial⟩

theorem along_exprs {es : List Expr} (ht : (Task.exprs es).Fits m) :
    (Expr.planAll es m).Along host ((Task.exprs es).Below m) := by
  cases es with
  | nil => trivial
  | cons e es =>
    refine ht.along_after (.refl ht.store) rfl (by simp only [size, Expr.sizeAll]; omega)
      fun v m₁ h₁ _ => ?_
    exact ht.along_after h₁ rfl (by simp only [size, Expr.sizeAll]; omega) fun vs m₂ _ _ => trivial

theorem along_stmt {s : Stmt} (ht : (Task.stmt s).Fits m) :
    (s.plan m).Along host ((Task.stmt s).Below m) := by
  have h₀ := Machine.Follows.refl ht.store
  cases s with
  | expr _ e => exact ht.along_after h₀ rfl (by simp) fun v m₁ h₁ _ => trivial
  | print _ e => exact ht.along_after h₀ rfl (by simp) fun v m₁ h₁ _ => trivial
  | ret _ e =>
    cases e with
    | none => trivial
    | some e => exact ht.along_after h₀ rfl (by simp) fun v m₁ h₁ _ => trivial
  | block _ body =>
    -- the body runs in a scope of its own, with as many calls to become active
    have hs := ht.store.openInside ht.scope .block
    exact ⟨⟨⟨hs, by simp [Machine.enter, Store.nextScope], by simp⟩,
      measure_lt_of_size rfl (by simp), rfl, rfl⟩, trivial⟩
  | bind _ id e =>
    cases e with
    | none => trivial
    | some e => exact ht.along_after h₀ rfl (by simp) fun v m₁ h₁ _ => trivial
  | function d =>
    simp only [Stmt.plan]
    split <;> trivial
  | cond _ test a b =>
    cases b with
    | none =>
      refine ht.along_after h₀ rfl (by simp only [size, Stmt.size]; omega) fun v m₁ h₁ _ => ?_
      split
      · exact ⟨ht.below h₁ (by simp) (by simp only [size, Stmt.size]; omega), trivial⟩
      · trivial
    | some b =>
      refine ht.along_after h₀ rfl (by simp only [size, Stmt.size]; omega) fun v m₁ h₁ _ => ?_
      split
      · exact ⟨ht.below h₁ (by simp) (by simp only [size, Stmt.size]; omega), trivial⟩
      · exact ⟨ht.below h₁ (by simp) (by simp only [size, Stmt.size]; omega), trivial⟩

theorem along_stmts {ss : List Stmt} (ht : (Task.stmts ss).Fits m) :
    (Stmt.planAll ss m).Along host ((Task.stmts ss).Below m) := by
  cases ss with
  | nil => trivial
  | cons s ss =>
    refine ht.along_after (.refl ht.store) rfl (by simp only [size, Stmt.sizeAll]; omega)
      fun c m₁ h₁ _ => ?_
    cases c with
    | normal => exact ⟨ht.below h₁ (by simp) (by simp only [size, Stmt.sizeAll]; omega), trivial⟩
    | returned v => trivial

/-- The machine in which the body of a function starts has the scope for the parameters. -/
theorem Fits.start {n : Nat} {d : FunctionDef} {k : ScopeId} {args : List Value}
    (ht : (Task.call (.closure n d k) args).Fits m)
    (hs : d.start k args m.deeper = .ok () m') :
    (m.deeper.opened k (.call d.name?)).Follows m' := by
  have hk : k < m.store.scopes.size := ht.inputs _ (List.mem_cons_self ..) k rfl
  have hstore : (m.deeper.opened k (.call d.name?)).store.WellFormed := ht.store.openInside hk _
  have hframe : m.store.nextScope < (m.deeper.opened k (.call d.name?)).store.scopes.size := by
    simp [Store.nextScope]
  have hargs : ∀ v ∈ args, (m.deeper.opened k (.call d.name?)).store.Holds v := fun v hv =>
    (ht.inputs v (List.mem_cons_of_mem _ hv)).mono (by simp)
  refine (Machine.Follows.of_respects (Q := fun _ _ => True) ?_ hstore hs).1
  exact respects_declareAll m.store.nextScope d.params hframe hargs

theorem along_call {f : Function} {args : List Value} (ht : (Task.call f args).Fits m) :
    (host.planCall f args m).Along host ((Task.call f args).Below m) := by
  rw [Host.planCall.eq_def]
  split
  · trivial
  split
  · trivial
  next hdepth =>
  cases f with
  | native _ n =>
    dsimp only
    split <;> trivial
  | closure n d k =>
    dsimp only
    split
    · next m₁ hs =>
      have h := ht.start hs
      have hsize : m.store.scopes.size + 1 ≤ m₁.store.scopes.size := by
        simpa using h.grows.size_le
      refine ⟨⟨⟨h.store, hsize, by simp⟩, ?_, congrArg Context.config h.context,
        congrArg Context.depth h.context⟩, trivial⟩
      -- the size of the body does not matter : one call less may become active
      have hr : (m₁.enter m.store.nextScope).remaining = m.deeper.remaining := h.remaining
      refine measure_lt_of_remaining ?_
      rw [hr]
      simp only [Machine.remaining, Machine.deeper]
      omega
    · trivial

theorem Fits.along {t : Task α} (ht : t.Fits m) : (t.plan host m).Along host (t.Below m) := by
  cases t with
  | expr e => exact along_expr ht
  | exprs es => exact along_exprs ht
  | stmt s => exact along_stmt ht
  | stmts ss => exact along_stmts ht
  | call f args => exact along_call ht

end Task

/-! ## Every task ends -/

/-- A plan ends, and only as the evaluator says, if the tasks that it asks for do. -/
theorem Plan.ends_iff {P : {β : Type} → Task β → Machine → Prop}
    (hP : ∀ {β : Type} (t : Task β) (m : Machine), P t m →
      ∀ q, t.Ends host m q ↔ q = t.run host m) :
    ∀ {p : Plan α}, p.Along host P → ∀ {r}, p.Ends host r ↔ r = p.run host
  | .done q, _, r => by
    constructor
    · rintro ⟨⟩
      rfl
    · intro hr
      rw [hr]
      exact .done q
  | .walk s x i next, ⟨hs, hnext⟩, r => by
    constructor
    · rintro (_ | ⟨hw, h⟩)
      rw [(Store.walks_iff hs).1 hw] at h
      exact (ends_iff hP hnext).1 h
    · intro hr
      exact .walk ((Store.walks_iff hs).2 rfl) ((ends_iff hP hnext).2 hr)
  | .ask t m next, ⟨ht, hnext⟩, r => by
    constructor
    · rintro (_ | _ | ⟨hq, h⟩)
      rw [(hP t m ht _).1 hq] at h
      exact (ends_iff hP hnext).1 h
    · intro hr
      exact .ask ((hP t m ht _).2 rfl) ((ends_iff hP hnext).2 hr)

/-- A task ends, and only in the way that the evaluator computes. -/
theorem Task.ends_iff {α : Type} (t : Task α) {m : Machine} (ht : t.Fits m) {r : Ending α} :
    t.Ends host m r ↔ r = t.run host m := by
  have hends : (t.plan host m).Ends host r ↔ r = (t.plan host m).run host :=
    Plan.ends_iff (fun t' m' h q => t'.ends_iff h.fits) ht.along
  rw [Task.Ends, hends, t.run_eq host m]
termination_by t.measure m
decreasing_by exact h.lt

/-- The tasks that are asked for when a plan is carried out. -/
inductive Plan.Asks (host : Host) {α β : Type} (t : Task β) (m : Machine) : Plan α → Prop
  | now {next : Ending β → Plan α} : Asks host t m (.ask t m next)
  | walk {s : Store} {x : String} {i : ScopeId} {j : Option ScopeId}
    {next : Option ScopeId → Plan α} : s.Walks x i j → Asks host t m (next j) →
    Asks host t m (.walk s x i next)
  | later {γ : Type} {t' : Task γ} {m' : Machine} {q : Ending γ} {next : Ending γ → Plan α} :
    t'.Ends host m' q → Asks host t m (next q) → Asks host t m (.ask t' m' next)

/-- The tasks that come up in the evaluation of a task. -/
inductive Task.Needs (host : Host) {α : Type} (t₀ : Task α) (m₀ : Machine) :
    {β : Type} → Task β → Machine → Prop
  | self : Needs host t₀ m₀ t₀ m₀
  | asks {β γ : Type} {t : Task β} {t' : Task γ} {m m' : Machine} : Needs host t₀ m₀ t m →
    (t.plan host m).Asks host t' m' → Needs host t₀ m₀ t' m'

theorem Task.below_of_asks {t : Task α} {t' : Task β} {γ : Type} {p : Plan γ}
    (h : p.Asks host t' m') (hp : p.Along host (t.Below m)) : t.Below m t' m' := by
  induction h with
  | now => exact hp.1
  | walk hw _ ih =>
    rw [(Store.walks_iff hp.1).1 hw] at ih
    exact ih hp.2
  | later hq _ ih =>
    rw [(Task.ends_iff _ hp.1.fits).1 hq] at ih
    exact ih hp.2

theorem Task.Needs.fits {t₀ : Task α} {t : Task β} (h : t₀.Needs host m t m') (h₀ : t₀.Fits m) :
    t.Fits m' := by
  induction h with
  | self => exact h₀
  | asks _ hasks ih => exact (below_of_asks hasks ih.along).fits

/-- The end of a program whose statements ended so. -/
def Run.ofEnding : Ending Completion → Run
  | .ok c m => ⟨.ok c.value?, m.store, m.printed⟩
  | .error e m => ⟨.error e, m.store, m.printed⟩

theorem Program.execute_eq (p : Program) (host : Host) (config : Config) (s : Store) (i : ScopeId)
    (printed : Array String) : p.execute host config s i printed =
      Run.ofEnding ((Task.stmts p.body).run host ⟨s, i, config, 0, printed⟩) := by
  rw [execute, Run.of, Host.execAll_eq]
  simp only [Functor.map, EStateM.map, Task.run]
  cases Stmt.execAll host.call p.body ⟨s, i, config, 0, printed⟩ <;> rfl

/-- From every scope of a well-formed store, a program ends in exactly one way, and the run is
that ending. So do all the tasks that come up, and what such a task asks for has a
smaller measure. -/
theorem Program.execute_terminates (p : Program) (host : Host) (config : Config) {s : Store}
    (hs : s.WellFormed) {i : ScopeId} (hi : i < s.scopes.size) (printed : Array String) :
    (∃ r, (∀ r', (Task.stmts p.body).Ends host ⟨s, i, config, 0, printed⟩ r' ↔ r' = r) ∧
        p.execute host config s i printed = Run.ofEnding r) ∧
      ∀ {β : Type} (t : Task β) (m : Machine),
        (Task.stmts p.body).Needs host ⟨s, i, config, 0, printed⟩ t m →
        (∃! r, t.Ends host m r) ∧
          ∀ {γ : Type} (t' : Task γ) (m' : Machine), (t.plan host m).Asks host t' m' →
            t'.measure m' < t.measure m := by
  have h₀ : (Task.stmts p.body).Fits ⟨s, i, config, 0, printed⟩ := ⟨hs, hi, by simp⟩
  refine ⟨⟨_, fun r' => Task.ends_iff _ h₀, p.execute_eq host config s i printed⟩, ?_⟩
  intro β t m hneeds
  have ht : t.Fits m := hneeds.fits h₀
  refine ⟨⟨t.run host m, (t.ends_iff ht).2 rfl, fun r hr => (t.ends_iff ht).1 hr⟩, ?_⟩
  intro γ t' m' hasks
  exact (Task.below_of_asks hasks ht.along).lt

/-- `fn f(g) { return g(g); }` -/
def Stmt.selfCalling : Stmt :=
  .function (.mk ⟨0, 24⟩ (some ⟨"f", ⟨3, 4⟩⟩) [⟨"g", ⟨5, 6⟩⟩] ⟨8, 24⟩
    [.ret ⟨10, 22⟩ (some (.call ⟨17, 21⟩ (.ident ⟨"g", ⟨17, 18⟩⟩) [.ident ⟨"g", ⟨19, 20⟩⟩]))])

/-- `fn f(g) { return g(g); } return f(f);` -/
def Program.selfPassing : Program :=
  ⟨⟨0, 37⟩, [.selfCalling,
    .ret ⟨25, 37⟩ (some (.call ⟨32, 36⟩ (.ident ⟨"f", ⟨32, 33⟩⟩) [.ident ⟨"f", ⟨34, 35⟩⟩]))]⟩

/-- A function that is passed to itself and calls what it is passed ends where the limit of the
calls stops it. -/
theorem Program.execute_terminates_selfPassing :
    let config : Config := ⟨.forbid, 3⟩
    let s := Store.empty.openRoot .forbid
    let m : Machine := ⟨s, 0, config, 0, #[]⟩
    let t := Task.stmts Program.selfPassing.body
    s.WellFormed ∧ 0 < s.scopes.size ∧
      (∃ r, (∀ r', t.Ends ⟨0⟩ m r' ↔ r' = r) ∧
        Program.selfPassing.execute ⟨0⟩ config s 0 #[] = Run.ofEnding r) ∧
      (Program.selfPassing.execute ⟨0⟩ config s 0 #[]).result =
        .error ⟨.stackOverflow 3, some ⟨17, 21⟩⟩ ∧
      (∃! r, t.Ends ⟨0⟩ m r) ∧ (Task.stmt .selfCalling).measure m < t.measure m := by
  intro config s m t
  have hs : s.WellFormed := Store.WellFormed.empty.openRoot .forbid
  have hi : 0 < s.scopes.size := by decide
  obtain ⟨hends, hneeds⟩ := Program.execute_terminates .selfPassing ⟨0⟩ config hs hi #[]
  obtain ⟨hunique, hlt⟩ := hneeds t m .self
  exact ⟨hs, hi, hends, by cbv, hunique, hlt (.stmt .selfCalling) m .now⟩

end Scoped
